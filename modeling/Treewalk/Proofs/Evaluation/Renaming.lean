import Mathlib.Data.List.Nodup
import Mathlib.Logic.Equiv.Basic
import Treewalk.Proofs.Evaluation.Simulation

/-!
# Evaluation — Names are only told apart

`Node.rename f` replaces every name `x` of a tree by `f x`, and `Table.rename f` does so with the
bound names of a table.  For an injective `f` a run of the renamed tree on the renamed table takes
the steps of the run that it was made from (`lawful_renamed`): the machine finds a name by comparing
it with others, and does nothing else with it.

An input also shows its name, in the prompt and in a warning, so the trees here make none.
-/

namespace Treewalk

/-! ### Renaming a tree -/

namespace Node

mutual

/-- The tree with every name `x` replaced by `f x`. -/
def rename (f : String → String) : Node → Node
  | block ss => block (renameAll f ss)
  | assign x e => assign (f x) (rename f e)
  | input x => input (f x)
  | text s => text s
  | print e => print (rename f e)
  | branch c yes no => branch (rename f c) (renameAll f yes) (renameAll f no)
  | loop c body => loop (rename f c) (renameAll f body)
  | binary op l r => binary op (rename f l) (rename f r)
  | number n => number n
  | var x => var (f x)

/-- The trees, each with its names replaced. -/
def renameAll (f : String → String) : List Node → List Node
  | [] => []
  | n :: ns => rename f n :: renameAll f ns

end

/-- The node itself is an input. -/
def isInput : Node → Bool
  | input _ => true
  | _ => false

/-- No part of the tree is an input. -/
def Inputless (n : Node) : Prop := ∀ m : Node, m.Part n → m.isInput = false

instance (n : Node) : Decidable n.Inputless := inferInstanceAs (Decidable (∀ _ : Node, _))

theorem Inputless.child {c n : Node} (h : n.Inputless) (hc : c ∈ n.children) : c.Inputless :=
  fun m hm => h m (.child hc hm)

end Node

/-! ### Renaming a table -/

namespace Table

variable {f : String → String} (hf : Function.Injective f)

/-- The table with every bound name `x` replaced by `f x`. -/
def rename (t : Table) : Table where
  entries := t.entries.map fun (x, v) => (f x, v)
  nodup := by
    have h := List.Nodup.map hf t.nodup
    rwa [List.map_map] at h ⊢

@[simp] theorem size_rename (t : Table) : (t.rename hf).size = t.size :=
  List.length_map _

/-- Only names that `f` gives are bound behind a renaming. -/
theorem get?_rename_of_not_range {y : String} (hy : ∀ x, f x ≠ y) (t : Table) :
    (t.rename hf).get? y = none := by
  simp only [get?, rename]
  induction t.entries with
  | nil => rfl
  | cons e es ih => rw [List.map_cons, find?, if_neg fun h => hy _ h.symm, ih]

theorem get?_rename (t : Table) (x : String) : (t.rename hf).get? (f x) = t.get? x := by
  simp only [get?, rename]
  induction t.entries with
  | nil => rfl
  | cons e es ih => simp only [List.map_cons, find?, hf.eq_iff, ih]

theorem read_rename (t : Table) (x : String) : (t.rename hf).read (f x) = t.read x := by
  rw [read, get?_rename hf, read]

include hf in
theorem rename_put (x : String) (v : Value) (es : List (String × Value)) :
    (put x v es).map (fun (y, w) => (f y, w)) = put (f x) v (es.map fun (y, w) => (f y, w)) := by
  induction es with
  | nil => rfl
  | cons e es ih =>
      simp only [put, List.map_cons, hf.eq_iff]
      split
      · rfl
      · rw [List.map_cons, ih]

/-- **Assigning and renaming commute.** -/
theorem rename_assign (t : Table) (x : String) (v : Value) :
    (t.assign x v).rename hf = (t.rename hf).assign (f x) v := by
  simp only [rename, assign, rename_put hf]

end Table

section Runs

variable {f : String → String} (hf : Function.Injective f)

/-- The state with the names of its table replaced. -/
def State.rename (s : State) : State :=
  { s with table := s.table.rename hf }

/-! ### Renamed runs -/

/-- A run of a tree without inputs, and the run of the renamed tree. -/
def Kinship.renamed : Kinship where
  node m n := n = m.rename f ∧ m.Inputless
  value := Eq
  state s t := t = s.rename hf

theorem renamed_all {ns : List Node} (h : ∀ n ∈ ns, n.Inputless) :
    List.Forall₂ (Kinship.renamed hf).node ns (Node.renameAll f ns) := by
  induction ns with
  | nil => exact .nil
  | cons n ns ih =>
      rw [List.forall_mem_cons] at h
      exact .cons ⟨rfl, h.1⟩ (ih h.2)

theorem lawful_renamed : (Kinship.renamed hf).Lawful where
  built := by
    rintro n _ ⟨rfl, hn⟩
    have hstore : ∀ x, (Kinship.renamed hf).Stores x (f x) := by
      rintro x s _ v _ rfl rfl
      exact congrArg (fun t => { s with table := t }) (Table.rename_assign hf s.table x v).symm
    have hread : ∀ x, (Kinship.renamed hf).Reads x (f x) := by
      rintro x s _ rfl
      exact (Table.read_rename hf s.table x).symm
    have hchild : ∀ c ∈ n.children, c.Inputless := fun c hc => hn.child hc
    cases n with
    | block ss => exact .block (renamed_all hf hchild)
    | assign x e => exact .assign (hstore x) ⟨rfl, hchild e List.mem_cons_self⟩
    | input x => cases hn _ .refl
    | text a => exact .text rfl
    | print e => exact .print ⟨rfl, hchild e List.mem_cons_self⟩
    | branch c yes no =>
        simp only [Node.children, List.forall_mem_cons, List.forall_mem_append] at hchild
        exact .branch ⟨rfl, hchild.1⟩ (renamed_all hf hchild.2.1) (renamed_all hf hchild.2.2)
    | loop c body =>
        simp only [Node.children, List.forall_mem_cons] at hchild
        exact .loop ⟨rfl, hchild.1⟩ (renamed_all hf hchild.2)
    | binary op l r =>
        simp only [Node.children, List.forall_mem_cons] at hchild
        exact .binary ⟨rfl, hchild.1⟩ ⟨rfl, hchild.2.1⟩
    | number k => exact .number
    | var x => exact .var (hread x)
  int _ := rfl
  toInt := congrArg _
  print := by
    rintro s _ v _ rfl rfl
    rfl

/-- A run of the renamed tree is the renamed run, step for step. -/
theorem evaluate_rename {n : Node} (hn : n.Inputless) (s : State) (fuel : Nat) :
    evaluate fuel (n.rename f) (s.rename hf) =
      (evaluate fuel n s).map fun (r, t) => (r, t.rename hf) := by
  have hrun : Option.Rel (Kinship.renamed hf).Outcomes (evaluate fuel n s)
      (evaluate fuel (n.rename f) (s.rename hf)) :=
    (lawful_renamed hf).evaluate fuel ⟨rfl, hn⟩ rfl
  generalize evaluate fuel n s = a, evaluate fuel (n.rename f) (s.rename hf) = b at hrun
  cases hrun with
  | none => rfl
  | some ho => exact congrArg some (Prod.ext (ho.result.eq id).symm ho.state)

end Runs

/-- **Renaming changes nothing but names.**  Let a tree make no input, and let `f` take different
names to different names.  Begun on the renamed table, the renamed tree ends after the same number
of steps or not at all, with the same value or the same fault; output, warnings and supply are the
same, and the table is the one that the tree leaves, renamed.  A renamed table binds as many names
as before, `f x` to what `x` is bound to, and no name that `f` does not give. -/
theorem renaming_is_invisible {f : String → String} (hf : Function.Injective f) {n : Node}
    (hn : n.Inputless) (s : State) :
    (∀ fuel, evaluate fuel (n.rename f) (s.rename hf) =
      (evaluate fuel n s).map fun (r, t) =>
        (r, { table := t.table.rename hf, console := t.console, supply := t.supply })) ∧
    ∀ t : Table, (t.rename hf).size = t.size ∧
      (∀ x, (t.rename hf).get? (f x) = t.get? x) ∧
      ∀ y, (∀ x, f x ≠ y) → (t.rename hf).get? y = none :=
  ⟨evaluate_rename hf hn s, fun t =>
    ⟨t.size_rename hf, t.get?_rename hf, fun _ hy => t.get?_rename_of_not_range hf hy⟩⟩

/-- Three passes of a loop and a remainder by zero behind it, with the two names exchanged. -/
theorem exchanged_names_fault_alike :
    let n : Node := .block [.assign "a" (.number 3),
      .loop (.var "a") [.print (.binary .mod (.var "b") (.var "a")),
        .assign "a" (.binary .sub (.var "a") (.number 1))],
      .assign "b" (.binary .mod (.number 1) (.var "a"))]
    let s : State := (State.start (.script [])).assign "b" (.int 7)
    evaluate 90 n s = some (.error .moduloByZero,
      ⟨{ entries := [("b", .int 7), ("a", .int 0)] }, ⟨"1\n1\n0\n", ""⟩, .script []⟩) ∧
    evaluate 90 (n.rename (Equiv.swap "a" "b")) (s.rename (Equiv.swap "a" "b").injective) =
      some (.error .moduloByZero,
        ⟨{ entries := [("a", .int 7), ("b", .int 0)] }, ⟨"1\n1\n0\n", ""⟩, .script []⟩) := by
  intro n s
  have hn : n.Inputless := by decide +kernel
  have hown : evaluate 90 n s = some (.error .moduloByZero,
      ⟨{ entries := [("b", .int 7), ("a", .int 0)] }, ⟨"1\n1\n0\n", ""⟩, .script []⟩) := by
    decide +kernel
  obtain ⟨hrun, -⟩ := renaming_is_invisible (Equiv.swap "a" "b").injective hn s
  refine ⟨hown, ?_⟩
  rw [hrun, hown]
  decide +kernel

end Treewalk
