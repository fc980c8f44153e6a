import Treewalk.Proofs.Lexical.Spelling

/-!
# Shape — The trees of programs

Any node may stand below any other, but only some trees are programs: a block of statements, where
conditions and values are expressions and every name is one (`IsProgram`).

`Node.source` writes such a tree: each operation in parentheses, a number below zero with a minus
sign, every `if` with both blocks.

* `isProgram_of_tree`: what the front end returns is a program.
* `tree_source`: the text of a program is accepted, and its tree is the program.
* `exists_tree_iff`: the front end returns the programs and nothing else.
-/

namespace Treewalk

open Grammar Treewalk.Symbol

/-! ### Programs -/

/-- The node is a value or a condition. -/
inductive IsExpression : Node → Prop where
  | number {n : Int64} : IsExpression (.number n)
  | text {x : String} : IsExpression (.text x)
  | var {x : String} : IsName x → IsExpression (.var x)
  | binary {op : Operator} {l r : Node} : IsExpression l → IsExpression r →
      IsExpression (.binary op l r)

/-- The node is a statement, and so are those in its blocks. -/
inductive IsStatement : Node → Prop where
  | assign {x : String} {e : Node} : IsName x → IsExpression e → IsStatement (.assign x e)
  | input {x : String} : IsName x → IsStatement (.input x)
  | print {e : Node} : IsExpression e → IsStatement (.print e)
  | branch {c : Node} {yes no : List Node} : IsExpression c → (∀ n ∈ yes, IsStatement n) →
      (∀ n ∈ no, IsStatement n) → IsStatement (.branch c yes no)
  | loop {c : Node} {body : List Node} : IsExpression c → (∀ n ∈ body, IsStatement n) →
      IsStatement (.loop c body)

/-- The node is a program: a block of statements. -/
inductive IsProgram : Node → Prop where
  | block {ns : List Node} : (∀ n ∈ ns, IsStatement n) → IsProgram (.block ns)

/-! ### What the front end returns -/

theorem IsExpression.of_expression {r : Rank} {ks : List TokenKind} {e : Node}
    (h : Expression r ks e) : (∀ x, .name x ∈ ks → IsName x) → IsExpression e := by
  induction h with
  | number => exact fun _ => .number
  | text => exact fun _ => .text
  | name => exact fun hn => .var (hn _ List.mem_cons_self)
  | parens _ ih => exact fun hn => ih fun x hx => hn x (by simp [hx])
  | minusNumber => exact fun _ => .number
  | minus _ _ ih => exact fun hn => .binary .number (ih fun x hx => hn x (by simp [hx]))
  | operation op _ _ ihl ihr =>
      exact fun hn => .binary (ihl fun x hx => hn x (by simp [hx]))
        (ihr fun x hx => hn x (by simp [hx]))
  | tighter _ ih => exact ih

theorem IsStatement.of_derives {p : Part} {ks : List TokenKind} {ns : List Node}
    (h : Derives p ks ns) :
    (∀ x, .name x ∈ ks → IsName x) → ∀ n ∈ ns, IsStatement n := by
  induction h with
  | assign he =>
      intro hn n hmem
      cases List.mem_singleton.mp hmem
      exact .assign (hn _ List.mem_cons_self) (.of_expression he fun x hx => hn x (by simp [hx]))
  | input =>
      intro hn n hmem
      cases List.mem_singleton.mp hmem
      exact .input (hn _ (by simp))
  | print he =>
      intro hn n hmem
      cases List.mem_singleton.mp hmem
      exact .print (.of_expression he fun x hx => hn x (by simp [condition, hx]))
  | conditional _ ih => exact ih
  | loop he _ ih =>
      intro hn n hmem
      cases List.mem_singleton.mp hmem
      exact .loop (.of_expression he fun x hx => hn x (by simp [condition, hx]))
        (ih fun x hx => hn x (by simp [hx]))
  | ifOnly he _ ih =>
      intro hn n hmem
      cases List.mem_singleton.mp hmem
      exact .branch (.of_expression he fun x hx => hn x (by simp [condition, hx]))
        (ih fun x hx => hn x (by simp [hx])) (fun n hn => absurd hn List.not_mem_nil)
  | ifElse he _ _ ihy ihn | elseIf he _ _ ihy ihn =>
      intro hn n hmem
      cases List.mem_singleton.mp hmem
      exact .branch (.of_expression he fun x hx => hn x (by simp [condition, hx]))
        (ihy fun x hx => hn x (by simp [hx])) (ihn fun x hx => hn x (by simp [hx]))
  | block _ ih => exact fun hn => ih fun x hx => hn x (by simp [hx])
  | nil => exact fun _ n hn => absurd hn List.not_mem_nil
  | cons _ _ ihs ih =>
      intro hn n hmem
      rcases List.mem_append.mp hmem with hmem | hmem
      · exact ihs (fun x hx => hn x (by simp [hx])) n hmem
      · exact ih (fun x hx => hn x (by simp [hx])) n hmem

/-- The tree of a script is a program. -/
theorem isProgram_of_tree {script : Script} {root : Node} (h : script.tree = .ok root) :
    IsProgram root := by
  obtain ⟨ks, hr, ns, hd, rfl⟩ := Script.tree_eq_ok_iff.mp h
  exact .block (.of_derives hd (isName_of_reads hr fun _ => isName_of_mem_ofText))

/-! ### The text of a program -/

mutual

/-- The kinds that a node is written with.  A number may be below zero here. -/
def Node.kinds : Node → List TokenKind
  | .number n => [.number n]
  | .text x => [.text x]
  | .var x => [.name x]
  | .binary op l r =>
    .mark .openParen :: (l.kinds ++ .mark op.mark :: (r.kinds ++ [.mark .closeParen]))
  | .assign x e => .name x :: .mark .assign :: (e.kinds ++ [.mark .semicolon])
  | .input x => [.keyword .input, .name x, .mark .semicolon]
  | .print e => condition .print e.kinds ++ [.mark .semicolon]
  | .branch c yes no =>
    condition .branch c.kinds ++ (.mark .openBrace :: (Node.allKinds yes ++ [.mark .closeBrace]) ++
      .keyword .otherwise :: .mark .openBrace :: (Node.allKinds no ++ [.mark .closeBrace]))
  | .loop c body =>
    condition .loop c.kinds ++ .mark .openBrace :: (Node.allKinds body ++ [.mark .closeBrace])
  | .block ns => Node.allKinds ns

/-- The kinds that nodes are written with, one after another. -/
def Node.allKinds : List Node → List TokenKind
  | [] => []
  | n :: ns => n.kinds ++ Node.allKinds ns

end

/-- The text of a node. -/
def Node.source (n : Node) : String := String.ofList (spell n.kinds)

/-! ### The way back -/

/-- An expression is written as one that binds at least like a minus sign. -/
theorem IsExpression.expression {e : Node} (h : IsExpression e) :
    Expression .unary (e.kinds.flatMap TokenKind.written) e := by
  induction h with
  | @number n =>
      by_cases hn : n.toInt < 0
      -- The minus sign is taken back into the number; the least word is its own negative.
      · have h : Expression .unary [.mark .minus, .number (-n)] (.number (- -n)) :=
          .minusNumber (.tighter .number)
        rw [Int64.neg_neg] at h
        simpa [Node.kinds, TokenKind.written, hn] using h
      · simpa [Node.kinds, TokenKind.written, hn] using Expression.tighter (r := .unary) .number
  | text => exact .tighter .text
  | var => exact .tighter .name
  | @binary op l r _ _ ihl ihr =>
      -- In parentheses an operation may be an operand of any operator.
      have hl : Expression (rank op) (l.kinds.flatMap TokenKind.written) l :=
        ihl.loosen (by cases op <;> decide)
      have hr : Expression (rank op).tighter (r.kinds.flatMap TokenKind.written) r :=
        ihr.loosen (by cases op <;> decide)
      have h := Expression.parens ((Expression.operation op hl hr).loosen (by cases op <;> decide))
      simpa [Node.kinds, TokenKind.written] using Expression.tighter (r := .unary) h

theorem IsExpression.whole {e : Node} (h : IsExpression e) :
    Expression .equality (e.kinds.flatMap TokenKind.written) e :=
  h.expression.loosen (by decide)

/-- Nodes that are written as statements are written as statements one after another. -/
theorem derives_allKinds {ns : List Node}
    (h : ∀ n ∈ ns, Derives .statement (n.kinds.flatMap TokenKind.written) [n]) :
    Derives .statements ((Node.allKinds ns).flatMap TokenKind.written) ns := by
  induction ns with
  | nil => exact .nil
  | cons n ns ih =>
      rw [Node.allKinds, List.flatMap_append]
      exact .cons (h n List.mem_cons_self) (ih fun m hm => h m (List.mem_cons_of_mem _ hm))

/-- A statement is written as a statement. -/
theorem IsStatement.derives {n : Node} (h : IsStatement n) :
    Derives .statement (n.kinds.flatMap TokenKind.written) [n] := by
  induction h with
  | assign _ he => simpa [Node.kinds, TokenKind.written] using Derives.assign he.whole
  | input _ => exact .input
  | print he => simpa [Node.kinds, TokenKind.written, condition] using Derives.print he.whole
  | branch hc _ _ ihy ihn =>
      have h := Derives.conditional (.ifElse hc.whole (.block (derives_allKinds ihy))
        (.block (derives_allKinds ihn)))
      simpa [Node.kinds, TokenKind.written, condition] using h
  | loop hc _ ih =>
      have h := Derives.loop hc.whole (.block (derives_allKinds ih))
      simpa [Node.kinds, TokenKind.written, condition] using h

theorem IsExpression.plain {e : Node} (h : IsExpression e) : ∀ k ∈ e.kinds, k.Plain := by
  induction h with
  | number | text => simp [Node.kinds]
  | var hx => simpa [Node.kinds] using hx
  | binary _ _ ihl ihr => simpa [Node.kinds, or_imp, forall_and] using ⟨ihl, ihr⟩

theorem plain_allKinds {ns : List Node} (h : ∀ n ∈ ns, ∀ k ∈ n.kinds, k.Plain) :
    ∀ k ∈ Node.allKinds ns, k.Plain := by
  induction ns with
  | nil => exact fun k hk => absurd hk List.not_mem_nil
  | cons n ns ih =>
      rw [Node.allKinds, List.forall_mem_append]
      exact ⟨h n List.mem_cons_self, ih fun m hm => h m (List.mem_cons_of_mem _ hm)⟩

theorem IsStatement.plain {n : Node} (h : IsStatement n) : ∀ k ∈ n.kinds, k.Plain := by
  induction h with
  | assign hx he => simpa [Node.kinds, or_imp, forall_and] using ⟨hx, he.plain⟩
  | input hx => simpa [Node.kinds] using hx
  | print he => simpa [Node.kinds, condition, or_imp, forall_and] using he.plain
  | branch hc _ _ ihy ihn =>
      simpa [Node.kinds, condition, or_imp, forall_and] using
        ⟨hc.plain, plain_allKinds ihy, plain_allKinds ihn⟩
  | loop hc _ ih =>
      simpa [Node.kinds, condition, or_imp, forall_and] using ⟨hc.plain, plain_allKinds ih⟩

/-- The text of a program is accepted, and its tree is the program. -/
theorem IsProgram.tree_source {root : Node} (h : IsProgram root) (name : String) :
    Script.tree ⟨name, root.source⟩ = .ok root := by
  obtain ⟨ns, rfl, hns⟩ : ∃ ns, root = .block ns ∧ ∀ n ∈ ns, IsStatement n := by
    cases h with
    | block hns => exact ⟨_, rfl, hns⟩
  have hplain := plain_allKinds fun n hn => (hns n hn).plain
  have hderives := derives_allKinds fun n hn => (hns n hn).derives
  refine Script.tree_eq_ok_iff.mpr ⟨_, ?_, ns, hderives, rfl⟩
  rw [Node.source, String.toList_ofList]
  exact reads_spell hplain false

/-- **The front end returns the programs and nothing else**: the tree of every script is a program,
and a program is the tree of its own text, under any name. -/
theorem exists_tree_iff (root : Node) :
    ((∃ script : Script, script.tree = .ok root) ↔ IsProgram root) ∧
      (IsProgram root → ∀ name, Script.tree ⟨name, root.source⟩ = .ok root) := by
  refine ⟨⟨fun ⟨_, h⟩ => isProgram_of_tree h, fun h => ?_⟩, IsProgram.tree_source⟩
  exact ⟨⟨"", root.source⟩, h.tree_source ""⟩

/-- The least word, a text with each of the escapes, and an empty block survive. -/
theorem tree_of_least_word_and_escapes :
    let root : Node := .block [.assign "x" (.binary .sub (.number (-9223372036854775808))
      (.text "a\"\\\nb")), .branch (.var "x") [.print (.number (-5))] []]
    root.source = "x = (-9223372036854775808 - \"a\\\"\\\\\\nb\"); " ++
        "if (x) \x7b print (-5); \x7d else \x7b \x7d " ∧
      IsProgram root ∧ Script.tree ⟨"script", root.source⟩ = .ok root := by
  intro root
  have hprint : IsStatement (.print (.number (-5))) := .print .number
  have hbranch : IsStatement (.branch (.var "x") [.print (.number (-5))] []) :=
    .branch (.var (by decide)) (by simpa using hprint) (by simp)
  have hassign : IsStatement (.assign "x" (.binary .sub (.number (-9223372036854775808))
      (.text "a\"\\\nb"))) := .assign (by decide) (.binary .number .text)
  have h : IsProgram root := .block (by simpa using ⟨hassign, hbranch⟩)
  refine ⟨String.toList_inj.mp ?_, h, (exists_tree_iff root).2 h "script"⟩
  rw [Node.source, String.toList_ofList]
  decide +kernel

end Treewalk
