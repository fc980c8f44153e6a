import Treewalk.Token.Basic
import Treewalk.Tree.Basic

/-!
# Grammar — The rules

The grammar of the language, as rules from kinds of tokens to trees, without a parser in mind.

```
program   := stmt*
stmt      := NAME '=' expr ';' | 'input' NAME ';' | 'print' '(' expr ')' ';'
           | if | 'while' '(' expr ')' block
if        := 'if' '(' expr ')' block ('else' (block | if))?
block     := '{' stmt* '}'
expr      := equality
equality  := compare ('==' compare)*
compare   := additive (('<' | '>') additive)*
additive  := mult (('+' | '-') mult)*
mult      := unary (('*' | '/' | '%') unary)*
unary     := '-' unary | primary
primary   := NUMBER | TEXT | NAME | '(' expr ')'
```

`Expression r ks e` says that the kinds `ks` are an expression of rank `r` with tree `e`.
Parentheses leave no trace in the tree, and each level associates to the left, because the right
operand of an operator is of the next tighter rank.  `Derives p ks ns` says that `ks` are the part
`p` of a program that stands for the statements `ns`; a statement stands for a list of one.
-/

namespace Treewalk

/-! ### Operators -/

/-- The mark of an operator. -/
def Operator.mark : Operator → Mark
  | add => .plus
  | sub => .minus
  | mul => .star
  | div => .slash
  | mod => .percent
  | greater => .greater
  | less => .less
  | equal => .equal

namespace Grammar

/-- The ranks of expressions, from the loosest to the tightest. -/
inductive Rank where
  | equality | comparison | additive | multiplicative | unary | primary
  deriving DecidableEq, Repr

/-- The rank of the operands that a rank is made of. -/
def Rank.tighter : Rank → Rank
  | equality => comparison
  | comparison => additive
  | additive => multiplicative
  | multiplicative => unary
  | unary => primary
  | primary => primary

/-- The rank that an operator makes. -/
def rank : Operator → Rank
  | .equal => .equality
  | .greater | .less => .comparison
  | .add | .sub => .additive
  | .mul | .div | .mod => .multiplicative

/-! ### Expressions -/

/-- `Expression r ks e`: the kinds are an expression of rank `r`, and `e` is its tree. -/
inductive Expression : Rank → List TokenKind → Node → Prop where
  | number {n : Int64} : Expression .primary [.number n] (.number n)
  | text {x : String} : Expression .primary [.text x] (.text x)
  | name {x : String} : Expression .primary [.name x] (.var x)
  | parens {ks : List TokenKind} {e : Node} : Expression .equality ks e →
      Expression .primary (.mark .openParen :: (ks ++ [.mark .closeParen])) e
  /-- A minus sign before a number makes the negative number, which wraps around. -/
  | minusNumber {ks : List TokenKind} {n : Int64} : Expression .unary ks (.number n) →
      Expression .unary (.mark .minus :: ks) (.number (-n))
  /-- A minus sign before anything else subtracts it from zero. -/
  | minus {ks : List TokenKind} {e : Node} : Expression .unary ks e → (∀ n, e ≠ .number n) →
      Expression .unary (.mark .minus :: ks) (.binary .sub (.number 0) e)
  | operation (op : Operator) {ks ls : List TokenKind} {l r : Node} :
      Expression (rank op) ks l → Expression (rank op).tighter ls r →
      Expression (rank op) (ks ++ .mark op.mark :: ls) (.binary op l r)
  | tighter {r : Rank} {ks : List TokenKind} {e : Node} :
      Expression r.tighter ks e → Expression r ks e

/-! ### Statements -/

/-- The parts of a program above the expressions. -/
inductive Part where
  | statement | conditional | block | statements
  deriving DecidableEq, Repr

/-- An expression between parentheses, after the keyword of its statement. -/
def condition (k : Keyword) (ks : List TokenKind) : List TokenKind :=
  .keyword k :: .mark .openParen :: (ks ++ [.mark .closeParen])

/-- `Derives p ks ns`: the kinds are a part `p`, and it stands for the statements `ns`. -/
inductive Derives : Part → List TokenKind → List Node → Prop where
  | assign {x : String} {ks : List TokenKind} {e : Node} : Expression .equality ks e →
      Derives .statement (.name x :: .mark .assign :: (ks ++ [.mark .semicolon])) [.assign x e]
  | input {x : String} :
      Derives .statement [.keyword .input, .name x, .mark .semicolon] [.input x]
  | print {ks : List TokenKind} {e : Node} : Expression .equality ks e →
      Derives .statement (condition .print ks ++ [.mark .semicolon]) [.print e]
  | conditional {ks : List TokenKind} {ns : List Node} :
      Derives .conditional ks ns → Derives .statement ks ns
  | loop {ks bs : List TokenKind} {c : Node} {body : List Node} : Expression .equality ks c →
      Derives .block bs body → Derives .statement (condition .loop ks ++ bs) [.loop c body]
  | ifOnly {ks ys : List TokenKind} {c : Node} {yes : List Node} : Expression .equality ks c →
      Derives .block ys yes → Derives .conditional (condition .branch ks ++ ys) [.branch c yes []]
  | ifElse {ks ys zs : List TokenKind} {c : Node} {yes no : List Node} :
      Expression .equality ks c → Derives .block ys yes → Derives .block zs no →
      Derives .conditional (condition .branch ks ++ (ys ++ .keyword .otherwise :: zs))
        [.branch c yes no]
  | elseIf {ks ys zs : List TokenKind} {c : Node} {yes no : List Node} :
      Expression .equality ks c → Derives .block ys yes → Derives .conditional zs no →
      Derives .conditional (condition .branch ks ++ (ys ++ .keyword .otherwise :: zs))
        [.branch c yes no]
  | block {ks : List TokenKind} {ns : List Node} : Derives .statements ks ns →
      Derives .block (.mark .openBrace :: (ks ++ [.mark .closeBrace])) ns
  | nil : Derives .statements [] []
  | cons {ks ls : List TokenKind} {ms ns : List Node} : Derives .statement ks ms →
      Derives .statements ls ns → Derives .statements (ks ++ ls) (ms ++ ns)

/-- The kinds are a program, and `root` is its tree: a block of its statements. -/
def Program (ks : List TokenKind) (root : Node) : Prop :=
  ∃ ns, Derives .statements ks ns ∧ root = .block ns

end Grammar

end Treewalk
