import Treewalk.Proofs.Evaluation.Agreement
import Treewalk.Proofs.Grammar.Termination
import Treewalk.Proofs.Tree.Parts

/-!
# Shape — Expressions have no effects

Any node may stand below any other, and the machine carries out an assignment, an input or a print
also where it is an operand.  The parser builds no such tree.  Where a value or a condition is
called for it puts numbers, texts, names and operations on them (`Effectless`), and these leave
every state as it was, at a fault as well.

* `tidy_of_parse`: every statement of a parsed program is about an effectless node.
* `Effectless.evaluates`: an effectless node ends in the state in which it was begun.
* `expressions_have_no_effects`: the two together, and what follows for a statement whose expression
  faults.
-/

namespace Treewalk

open Grammar

/-! ### The trees of expressions -/

/-- The node is built of numbers, texts, names and operations alone. -/
inductive Effectless : Node → Prop where
  | number {n : Int64} : Effectless (.number n)
  | text {x : String} : Effectless (.text x)
  | var {x : String} : Effectless (.var x)
  | binary {op : Operator} {l r : Node} : Effectless l → Effectless r →
      Effectless (.binary op l r)

/-- The node that a statement is about: the value that it assigns or prints, or its condition. -/
def Node.subject? : Node → Option Node
  | assign _ e => some e
  | print e => some e
  | branch c _ _ => some c
  | loop c _ => some c
  | _ => none

/-- Every statement in the tree is about an effectless node. -/
def Node.Tidy (n : Node) : Prop :=
  ∀ m : Node, m.Part n → ∀ e, m.subject? = some e → Effectless e

theorem Node.Tidy.of_children {n : Node} (hs : ∀ e, n.subject? = some e → Effectless e)
    (hc : ∀ c ∈ n.children, c.Tidy) : n.Tidy :=
  Node.forall_part_iff.mpr ⟨hs, hc⟩

/-- An effectless node has no statement in it. -/
theorem Effectless.tidy {e : Node} (h : Effectless e) : e.Tidy := by
  induction h with
  | number | text | var => exact .of_children (fun _ he => nomatch he) (fun _ hc => nomatch hc)
  | binary _ _ ihl ihr =>
      refine .of_children (fun _ he => nomatch he) ?_
      simpa [Node.children] using ⟨ihl, ihr⟩

/-! ### What the parser builds -/

theorem Effectless.of_expression {r : Rank} {ks : List TokenKind} {e : Node}
    (h : Expression r ks e) : Effectless e := by
  induction h with
  | number => exact .number
  | text => exact .text
  | name => exact .var
  | parens _ ih => exact ih
  | minusNumber _ _ => exact .number
  | minus _ _ ih => exact .binary .number ih
  | operation op _ _ ihl ihr => exact .binary ihl ihr
  | tighter _ ih => exact ih

/-- A statement about an effectless node is tidy if its blocks are. -/
theorem Effectless.tidy_statement {n e : Node} (h : Effectless e) (he : n.subject? = some e)
    {blocks : List Node} (hc : n.children = e :: blocks) (hb : ∀ m ∈ blocks, m.Tidy) :
    n.Tidy := by
  refine .of_children (fun e' he' => Option.some.inj (he.symm.trans he') ▸ h) ?_
  rw [hc, List.forall_mem_cons]
  exact ⟨h.tidy, hb⟩

theorem tidy_of_derives {p : Part} {ks : List TokenKind} {ns : List Node}
    (h : Derives p ks ns) : ∀ n ∈ ns, n.Tidy := by
  induction h with
  | assign he | print he =>
      rw [List.forall_mem_singleton]
      exact (Effectless.of_expression he).tidy_statement rfl rfl (fun _ hm => nomatch hm)
  | input =>
      rw [List.forall_mem_singleton]
      exact .of_children (fun _ he => nomatch he) (fun _ hc => nomatch hc)
  | conditional _ ih => exact ih
  | loop he _ ih =>
      rw [List.forall_mem_singleton]
      exact (Effectless.of_expression he).tidy_statement rfl rfl ih
  | ifOnly he _ ih =>
      rw [List.forall_mem_singleton]
      exact (Effectless.of_expression he).tidy_statement rfl rfl (by simpa using ih)
  | ifElse he _ _ ihy ihn | elseIf he _ _ ihy ihn =>
      rw [List.forall_mem_singleton]
      exact (Effectless.of_expression he).tidy_statement rfl rfl
        (List.forall_mem_append.mpr ⟨ihy, ihn⟩)
  | block _ ih => exact ih
  | nil => exact fun _ hm => nomatch hm
  | cons _ _ ihs ih => exact List.forall_mem_append.mpr ⟨ihs, ih⟩

/-- Whatever the parser accepts is a program of the grammar, also a list without tokens. -/
theorem program_of_accepted {ts : List Token} {root : Node} (h : parse ts = some (.ok root)) :
    Program (content ts) root := by
  by_cases hfin : ∃ t ∈ ts, t.kind = .finish
  · exact program_of_parse hfin h
  · by_cases hne : ts = []
    · subst hne
      cases h
      exact ⟨[], .nil, rfl⟩
    · obtain ⟨e, he⟩ := parse_eq_error hne (fun t ht hk => hfin ⟨t, ht, hk⟩) h
      cases he

theorem tidy_of_parse {ts : List Token} {root : Node} (h : parse ts = some (.ok root)) :
    root.Tidy := by
  obtain ⟨ns, hd, rfl⟩ := program_of_accepted h
  exact .of_children (fun _ he => nomatch he) (tidy_of_derives hd)

/-! ### What expressions do -/

/-- **An effectless node ends in the state in which it was begun**, with a value or a fault. -/
theorem Effectless.evaluates {e : Node} (h : Effectless e) (s : State) :
    ∃ r, Evaluates (.node e) s r s := by
  induction h with
  | number => exact ⟨_, .number⟩
  | text => exact ⟨_, .text⟩
  | var => exact ⟨_, .var⟩
  | @binary op l r _ _ ihl ihr =>
      obtain ⟨a | a, hl⟩ := ihl
      · exact ⟨_, .leftFault hl⟩
      obtain ⟨b | b, hr⟩ := ihr
      · exact ⟨_, .rightFault hl hr⟩
      · exact ⟨_, .binary hl hr (Operator.yields_apply op a.toInt b.toInt)⟩

/-- A statement faults where the node that it is about does. -/
theorem Evaluates.of_subject_fault {n e : Node} (he : n.subject? = some e) {s s' : State}
    {f : Fault} (h : Evaluates (.node e) s (.error f) s') :
    Evaluates (.node n) s (.error f) s' := by
  cases n with
  | assign x v => cases he; exact .assignFault h
  | print v => cases he; exact .printFault h
  | branch c yes no => cases he; exact .branchFault h
  | loop c body => cases he; exact .loopFault h
  | _ => cases he

/-- **The expressions of programs have no effects.**  In the tree of every list of tokens that the
parser accepts, each node that is assigned, printed or a condition ends in any state, with a value
or a fault, and in the state in which it was begun.  So where it faults, the statement that it
belongs to ends with that fault and has changed nothing, a loop at its first check. -/
theorem expressions_have_no_effects {ts : List Token} {root n e : Node}
    (h : parse ts = some (.ok root)) (hn : n.Part root) (he : n.subject? = some e) (s : State) :
    (∃ fuel r, evaluate fuel e s = some (r, s)) ∧
    (∀ fuel r s', evaluate fuel e s = some (r, s') → s' = s) ∧
    ∀ fuel f s', evaluate fuel e s = some (.error f, s') →
      (∃ fuel', evaluate fuel' n s = some (.error f, s)) ∧
        ∀ fuel' o, evaluate fuel' n s = some o → o = (.error f, s) := by
  obtain ⟨r, hr⟩ := (tidy_of_parse h n hn e he).evaluates s
  have hkept : ∀ {r' s'}, Evaluates (.node e) s r' s' → s' = s := fun h' => (h'.unique hr).2
  refine ⟨?_, fun fuel r' s' h' => hkept (evaluates_of_evaluate h'), fun fuel f s' hf => ?_⟩
  · obtain ⟨fuel, hfuel⟩ := hr.exists_evaluate
    exact ⟨fuel, r, hfuel⟩
  · have hfault := evaluates_of_evaluate hf
    obtain rfl := hkept hfault
    have hstatement := Evaluates.of_subject_fault he hfault
    refine ⟨hstatement.exists_evaluate, fun fuel' ⟨r', s'⟩ ho => ?_⟩
    obtain ⟨rfl, rfl⟩ := (evaluates_of_evaluate ho).unique hstatement
    rfl

/-- In `if (1) { y = x + 1 / z; }` the assignment faults where `z` is not bound, and leaves `y` as
it was. -/
theorem faulting_assignment_keeps_name :
    let n : Node := .assign "y" (.binary .add (.var "x") (.binary .div (.number 1) (.var "z")))
    let s : State := (State.start (.script [.line "7"])).assign "y" (.text "kept")
    parse ([.keyword .branch, .mark .openParen, .number 1, .mark .closeParen, .mark .openBrace,
        .name "y", .mark .assign, .name "x", .mark .plus, .number 1, .mark .slash, .name "z",
        .mark .semicolon, .mark .closeBrace, .finish].map (Token.mk · .empty)) =
          some (.ok (.block [.branch (.number 1) [n] []])) ∧
      ∃ fuel, evaluate fuel n s = some (.error .divisionByZero, s) := by
  intro n s
  have hparse : parse ([.keyword .branch, .mark .openParen, .number 1, .mark .closeParen,
      .mark .openBrace, .name "y", .mark .assign, .name "x", .mark .plus, .number 1, .mark .slash,
      .name "z", .mark .semicolon, .mark .closeBrace, .finish].map (Token.mk · .empty)) =
        some (.ok (.block [.branch (.number 1) [n] []])) := rfl
  have hpart : n.Part (.block [.branch (.number 1) [n] []]) :=
    .child List.mem_cons_self (.child (by simp [Node.children]) .refl)
  obtain ⟨-, -, hfault⟩ := expressions_have_no_effects hparse hpart rfl s
  exact ⟨hparse, (hfault 20 .divisionByZero s rfl).1⟩

end Treewalk
