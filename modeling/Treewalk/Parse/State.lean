import Treewalk.Parse.Error
import Treewalk.Tree.Basic

/-!
# Parse — The parser's state

The parser takes one token at a time.  Between two tokens it holds a `State`: the goal, which is
what the grammar calls for next; the finished statements of the innermost open block; and the
blocks that enclose it.  Nothing is held on the call stack, so nesting has no depth limit.

Inside an expression the state holds what still waits for an operand, innermost first: minus signs,
open parentheses, and operators with their left operand.  An operator first closes everything that
binds at least as tightly (`reduce`), which makes every level associate to the left; a minus sign
binds tighter than any operator.

`State.feed` is one step.  It ends in an error, in the next state, or in the finished tree.
-/

namespace Treewalk

/-- How tightly an operator binds: equality least, then comparison, addition, multiplication. -/
def Operator.level : Operator → Nat
  | equal => 1
  | greater => 2
  | less => 2
  | add => 3
  | sub => 3
  | mul => 4
  | div => 4
  | mod => 4

/-- The operator that a kind of token stands for between two operands. -/
def Operator.ofKind? : TokenKind → Option Operator
  | .mark .equal => some .equal
  | .mark .less => some .less
  | .mark .greater => some .greater
  | .mark .plus => some .add
  | .mark .minus => some .sub
  | .mark .star => some .mul
  | .mark .slash => some .div
  | .mark .percent => some .mod
  | _ => none

/-- Zero minus the operand. -/
def Node.minus (e : Node) : Node :=
  .binary .sub (.number 0) e

/-- What a minus sign before an operand builds: the negated number over a number, and zero minus
the operand over anything else. -/
def Node.negate : Node → Node
  | .number n => .number (-n)
  | e => e.minus

namespace Parser

/-- The arms of an `if` statement that end in `else if`, innermost first: the condition and the
statements of each. -/
abbrev Chain := List (Node × List Node)

/-- The statement that begins with the arms of `chain` and ends in `inner`. -/
def Chain.close (chain : Chain) (inner : Node) : Node :=
  chain.foldl (fun n (c, yes) => .branch c yes [n]) inner

/-- What an expression is for. -/
inductive Purpose where
  /-- The value of a name. -/
  | assign (name : String)
  /-- The value to print. -/
  | print
  /-- The condition of an `if`. -/
  | branch (chain : Chain)
  /-- The condition of a `while`. -/
  | loop

/-- The construct that the expression belongs to. -/
def Purpose.construct : Purpose → Construct
  | assign _ => .assignment
  | print => .print
  | branch _ => .branch
  | loop => .loop

/-- What waits for the operand that comes next. -/
inductive Waiting where
  /-- A minus sign. -/
  | negation
  /-- An open parenthesis. -/
  | paren
  /-- An operator and its left operand. -/
  | operation (op : Operator) (left : Node)

/-- A block of a statement, before its closing brace. -/
inductive Body where
  /-- The first block of an `if`. -/
  | yes (chain : Chain) (condition : Node)
  /-- The block after `else`. -/
  | no (chain : Chain) (condition : Node) (yes : List Node)
  /-- The block of a `while`. -/
  | loop (condition : Node)

/-- The construct that the block belongs to. -/
def Body.construct : Body → Construct
  | yes _ _ => .branch
  | no _ _ _ => .branch
  | loop _ => .loop

/-- What the grammar calls for next. -/
inductive Goal where
  /-- A statement, or the end of the block. -/
  | statement
  /-- The `=` of an assignment. -/
  | assignMark (name : String)
  /-- The name of an `input` statement. -/
  | inputName
  /-- The semicolon of an `input` statement. -/
  | inputEnd (name : String)
  /-- The parenthesis before a printed value or a condition. -/
  | openParen (purpose : Purpose)
  /-- An operand. -/
  | operand (purpose : Purpose) (waiting : List Waiting)
  /-- An operator, or what follows the expression. -/
  | operator (purpose : Purpose) (waiting : List Waiting) (operand : Node)
  /-- The semicolon of a `print` statement. -/
  | printEnd (value : Node)
  /-- The brace that opens a block. -/
  | openBrace (body : Body)
  /-- An `else`, or what follows an `if` statement without one. -/
  | orElse (chain : Chain) (condition : Node) (yes : List Node)
  /-- What stands after `else`: a block or an `if`. -/
  | elseBody (chain : Chain) (condition : Node) (yes : List Node)

/-- The parser between two tokens. -/
structure State where
  /-- What is called for. -/
  goal : Goal
  /-- The finished statements of the innermost open block, newest first. -/
  done : List Node
  /-- The open blocks, innermost first, each with the statements that stand before it, newest
  first. -/
  outer : List (Body × List Node)

/-- What one token leads to. -/
inductive Step where
  /-- More tokens are called for. -/
  | next (s : State)
  /-- The program is complete. -/
  | accept (root : Node)

/-- The operand with everything applied that waits for it and binds at least at `level`, and what
goes on waiting. -/
def reduce (negate : Node → Node) (level : Nat) : List Waiting → Node → List Waiting × Node
  | .negation :: ws, e => reduce negate level ws (negate e)
  | .operation op l :: ws, e =>
    if level ≤ op.level then reduce negate level ws (.binary op l e)
    else (.operation op l :: ws, e)
  | ws, e => (ws, e)

namespace State

/-- Before the first token. -/
def start : State := ⟨.statement, [], []⟩

/-- The state with another goal. -/
def toward (s : State) (g : Goal) : State := { s with goal := g }

/-- The state after a complete statement. -/
def finish (s : State) (n : Node) : State := { s with goal := .statement, done := n :: s.done }

/-- The state inside a block that has just been opened. -/
def enter (s : State) (b : Body) : State := ⟨.statement, [], (b, s.done) :: s.outer⟩

/-- The state after the closing brace of block `b`, which stands after the statements of
`before`. -/
def leave (s : State) (b : Body) (before : List Node) (outer : List (Body × List Node)) : State :=
  let statements := s.done.reverse
  match b with
  | .yes chain c => ⟨.orElse chain c statements, before, outer⟩
  | .no chain c yes => finish ⟨.statement, before, outer⟩ (chain.close (.branch c yes statements))
  | .loop c => finish ⟨.statement, before, outer⟩ (.loop c statements)

/-- If the token is the mark `m`, the next state; otherwise an error inside construct `c`. -/
def demand (t : Token) (m : Mark) (c : Construct) (next : State) : Except ParseError Step :=
  match t.demand (.mark m) with
  | .ok () => .ok (.next next)
  | .error e => .error (e.inside c)

/-- A token where a statement may begin. -/
def feedStatement (s : State) (t : Token) : Except ParseError Step :=
  match t.kind, s.outer with
  | .name x, _ => .ok (.next (s.toward (.assignMark x)))
  | .keyword .input, _ => .ok (.next (s.toward .inputName))
  | .keyword .print, _ => .ok (.next (s.toward (.openParen .print)))
  | .keyword .branch, _ => .ok (.next (s.toward (.openParen (.branch []))))
  | .keyword .loop, _ => .ok (.next (s.toward (.openParen .loop)))
  | .mark .closeBrace, (b, before) :: outer => .ok (.next (s.leave b before outer))
  | .finish, [] => .ok (.accept (.block s.done.reverse))
  | .finish, _ :: _ => .error ((t.unexpected (.kind (.mark .closeBrace))).inside .block)
  | k, _ => .error (.noStatement k.description t.span)

/-- A token where an operand must begin. -/
def feedOperand (s : State) (p : Purpose) (ws : List Waiting) (t : Token) :
    Except ParseError Step :=
  match t.kind with
  | .mark .minus => .ok (.next (s.toward (.operand p (.negation :: ws))))
  | .mark .openParen => .ok (.next (s.toward (.operand p (.paren :: ws))))
  | .number n => .ok (.next (s.toward (.operator p ws (.number n))))
  | .text x => .ok (.next (s.toward (.operator p ws (.text x))))
  | .name x => .ok (.next (s.toward (.operator p ws (.var x))))
  | k => .error (.noExpression k.description t.span (some p.construct))

/-- A token after a complete expression `e`. -/
def feedEnd (s : State) (p : Purpose) (e : Node) (t : Token) : Except ParseError Step :=
  match p with
  | .assign x => demand t .semicolon .assignment (s.finish (.assign x e))
  | .print => demand t .closeParen .print (s.toward (.printEnd e))
  | .branch chain => demand t .closeParen .branch (s.toward (.openBrace (.yes chain e)))
  | .loop => demand t .closeParen .loop (s.toward (.openBrace (.loop e)))

/-- A token after an operand. -/
def feedOperator (negate : Node → Node) (s : State) (p : Purpose) (ws : List Waiting) (e : Node)
    (t : Token) : Except ParseError Step :=
  match Operator.ofKind? t.kind with
  | some op =>
    let (ws, e) := reduce negate op.level ws e
    .ok (.next (s.toward (.operand p (.operation op e :: ws))))
  | none =>
    match reduce negate 0 ws e with
    | (.paren :: ws, e) => demand t .closeParen p.construct (s.toward (.operator p ws e))
    | (_, e) => s.feedEnd p e t

/-- One token.  `negate` tells what a minus sign before an operand builds. -/
def feed (negate : Node → Node) (s : State) (t : Token) : Except ParseError Step :=
  match s.goal with
  | .statement => s.feedStatement t
  | .assignMark x => demand t .assign .assignment (s.toward (.operand (.assign x) []))
  | .inputName =>
    match t.demandName with
    | .ok x => .ok (.next (s.toward (.inputEnd x)))
    | .error e => .error (e.inside .input)
  | .inputEnd x => demand t .semicolon .input (s.finish (.input x))
  | .openParen p => demand t .openParen p.construct (s.toward (.operand p []))
  | .operand p ws => s.feedOperand p ws t
  | .operator p ws e => s.feedOperator negate p ws e t
  | .printEnd e => demand t .semicolon .print (s.finish (.print e))
  | .openBrace b => demand t .openBrace b.construct (s.enter b)
  | .orElse chain c yes =>
    if t.kind = .keyword .otherwise then .ok (.next (s.toward (.elseBody chain c yes)))
    else (s.finish (chain.close (.branch c yes []))).feedStatement t
  | .elseBody chain c yes =>
    if t.kind = .keyword .branch then
      .ok (.next (s.toward (.openParen (.branch ((c, yes) :: chain)))))
    else demand t .openBrace .branch (s.enter (.no chain c yes))

end State

end Parser

end Treewalk
