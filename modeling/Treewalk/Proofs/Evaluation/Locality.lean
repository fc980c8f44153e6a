import Mathlib.Data.List.Perm.Subperm
import Treewalk.Proofs.Evaluation.Simulation

/-!
# Evaluation — What a run reads and writes

A run touches no name that its tree does not mention.

* **Reading** (`evaluate_sameOn`).  Two runs of a tree from states that look the same at the tree's
  names end together, in states that look the same there.  What it means to look the same at a name
  is left open (`Look`): the two tables bind it alike, or they read it alike.
* **Writing** (`grown_of_reaches`).  Of a table, a run changes the targets of its tree only.  It
  unbinds nothing, and what it binds first are targets, each once.

Both are kinships: the first of two runs, the second of a run beside itself.
-/

namespace Treewalk

/-! ### Looking at a table -/

/-- A way to look at a name in a table which tells what reading the name gives, and which an
assignment changes in the same way wherever it was the same before. -/
structure Look {α : Type} (look : Table → String → α) : Prop where
  read {t u : Table} {x : String} : look t x = look u x → t.read x = u.read x
  assign {t u : Table} {y : String} (x : String) (v : Value) : look t y = look u y →
    look (t.assign x v) y = look (u.assign x v) y

theorem look_get? : Look Table.get? where
  read h := congrArg (·.getD .unit) h
  assign x v h := by rw [Table.get?_assign, Table.get?_assign, h]

theorem look_read : Look Table.read where
  read h := h
  assign x v h := by rw [Table.read_assign, Table.read_assign, h]

/-- The states have written and read the same, and their tables look the same at the names. -/
structure State.SameOn {α : Type} (look : Table → String → α) (xs : List String)
    (s t : State) : Prop where
  console : s.console = t.console
  supply : s.supply = t.supply
  table : ∀ x ∈ xs, look s.table x = look t.table x

/-! ### Reading -/

/-- Two runs of one tree, whose names are among `xs`. -/
def Kinship.sameOn {α : Type} (look : Table → String → α) (xs : List String) : Kinship where
  node m n := m = n ∧ ∀ x ∈ m.names, x ∈ xs
  value := Eq
  state := State.SameOn look xs

section Reading

variable {α : Type} {look : Table → String → α} {xs : List String}

theorem State.SameOn.assign (hl : Look look) {s t : State} (h : s.SameOn look xs t) (x : String)
    (v : Value) : (s.assign x v).SameOn look xs (t.assign x v) :=
  ⟨h.console, h.supply, fun y hy => hl.assign x v (h.table y hy)⟩

theorem State.SameOn.ask {s t : State} (h : s.SameOn look xs t) (x : String) :
    (s.ask x).1 = (t.ask x).1 ∧ (s.ask x).2.SameOn look xs (t.ask x).2 := by
  obtain ⟨hn, he, hq, p, hs, ht⟩ := State.ask_alike (congrArg _ h.console) h.supply x
  refine ⟨hn, ?_, hq, ?_⟩
  · have hout : (s.ask x).2.console.output = (t.ask x).2.console.output := by
      rw [hs, ht, h.console]
    generalize (s.ask x).2.console = c, (t.ask x).2.console = c' at hout he
    obtain ⟨out, err⟩ := c
    obtain ⟨out', err'⟩ := c'
    cases hout
    cases he
    rfl
  · rw [State.ask_table, State.ask_table]
    exact h.table

theorem lawful_sameOn (hl : Look look) : (Kinship.sameOn look xs).Lawful where
  built := by
    rintro n _ ⟨rfl, hn⟩
    refine .self (fun c hc => ⟨rfl, fun x hx => hn x (Node.mem_names_of_child hc hx)⟩)
      (fun _ => rfl) (fun x _ => ?_) (fun x _ => ?_) (fun x hx => ?_)
    · rintro s t v _ hs rfl
      exact hs.assign hl x v
    · exact fun hs => hs.ask x
    · subst hx
      intro s t hs
      exact hl.read (hs.table x (hn x (Node.mem_names_iff.mpr ⟨_, .refl, rfl⟩)))
  int _ := rfl
  toInt := congrArg _
  print := by
    rintro s t v _ hs rfl
    exact ⟨by rw [hs.console], hs.supply, hs.table⟩

/-- **A run reads the names of its tree only.** -/
theorem evaluate_sameOn (hl : Look look) (n : Node) {s t : State} (h : s.SameOn look n.names t)
    (fuel : Nat) :
    Option.Rel (fun o o' => o.1 = o'.1 ∧ o.2.SameOn look n.names o'.2)
      (evaluate fuel n s) (evaluate fuel n t) := by
  have hrun := (lawful_sameOn hl).evaluate fuel (n := n) ⟨rfl, fun _ hx => hx⟩ h
  generalize evaluate fuel n s = a, evaluate fuel n t = a' at hrun
  cases hrun with
  | none => exact .none
  | some ho => exact .some ⟨ho.result.eq id, ho.state⟩

end Reading

/-! ### Writing -/

namespace Table

/-- The bound names, in the order in which they were first bound. -/
def names (t : Table) : List String := t.entries.map Prod.fst

theorem get?_eq_none_iff {t : Table} {x : String} : t.get? x = none ↔ x ∉ t.names := by
  simp only [get?, names]
  induction t.entries with
  | nil => simp [find?]
  | cons e es ih =>
      obtain ⟨y, w⟩ := e
      rw [find?, List.map_cons, List.mem_cons]
      split
      · next h => simp [h]
      · next h => rw [ih]; simp [h]

/-- An assignment binds its name behind the others, unless it is bound. -/
theorem names_assign (t : Table) (x : String) (v : Value) :
    (t.assign x v).names = if x ∈ t.names then t.names else t.names ++ [x] :=
  map_fst_put x v t.entries

/-- The table `u` is `t` after some assignments to names of `xs`. -/
structure Extends (xs : List String) (t u : Table) : Prop where
  others : ∀ x ∉ xs, u.get? x = t.get? x
  names : ∃ fresh, u.names = t.names ++ fresh ∧ fresh.Nodup ∧ fresh ⊆ xs

theorem Extends.refl (xs : List String) (t : Table) : t.Extends xs t :=
  ⟨fun _ _ => rfl, [], by simp⟩

theorem Extends.assign {xs : List String} {t u : Table} (h : t.Extends xs u) {x : String}
    (hx : x ∈ xs) (v : Value) : t.Extends xs (u.assign x v) := by
  constructor
  · intro y hy
    have hne : y ≠ x := fun heq => hy (heq ▸ hx)
    rw [get?_assign, if_neg hne, h.others y hy]
  · obtain ⟨fresh, hnames, hnodup, hsub⟩ := h.names
    rw [names_assign]
    split
    · exact ⟨fresh, hnames, hnodup, hsub⟩
    · next hnew =>
        rw [hnames, List.mem_append, not_or] at hnew
        refine ⟨fresh ++ [x], by rw [hnames, List.append_assoc], ?_, ?_⟩
        · exact List.nodup_append.mpr ⟨hnodup, by simp, fun y hy z hz heq => hnew.2 (by grind)⟩
        · exact List.append_subset.mpr ⟨hsub, by simpa using hx⟩

/-- What a run may do to a table whose tree has the targets `xs`. -/
structure Grown (xs : List String) (t u : Table) : Prop where
  /-- A name that is no target keeps its binding, or has none still. -/
  others : ∀ x ∉ xs, u.get? x = t.get? x
  /-- What was bound is bound. -/
  bound : ∀ x, t.get? x ≠ none → u.get? x ≠ none
  /-- Each target is at most one binding more. -/
  size : u.size ≤ t.size + xs.length

theorem Extends.grown {xs : List String} {t u : Table} (h : t.Extends xs u) : t.Grown xs u := by
  obtain ⟨fresh, hnames, hnodup, hsub⟩ := h.names
  refine ⟨h.others, fun x hx => ?_, ?_⟩
  · rw [ne_eq, get?_eq_none_iff, Decidable.not_not] at hx ⊢
    rw [hnames]
    exact List.mem_append_left _ hx
  · have hlen : fresh.length ≤ xs.length := (List.subperm_of_subset hnodup hsub).length_le
    have hsize : u.size = t.size + fresh.length := by
      simpa [Table.names, Table.size] using congrArg List.length hnames
    omega

end Table

theorem lawful_extends (xs : List String) (t : Table) :
    (Kinship.keeping (fun n => ∀ x ∈ n.targets, x ∈ xs) fun s => t.Extends xs s.table).Lawful :=
  Kinship.lawful_keeping
    (fun hn hc x hx => hn x (Node.mem_targets_of_child hc hx))
    (fun hn hx _ v hs => hs.assign (hn _ (Node.mem_targets_iff.mpr ⟨_, .refl, hx⟩)) v)
    (fun _ s hs => by rwa [State.ask_table])
    (fun _ hs => hs)

/-- **A run writes the targets of its tree only**, at every step. -/
theorem grown_of_reaches {n : Node} {s : State} {m : Machine}
    (h : (Machine.start n s).Reaches m) : s.table.Grown n.targets m.state.table :=
  ((lawful_extends n.targets s.table).keeps (fun _ hx => hx) (.refl _ _) h).grown

/-! ### Reading and writing -/

/-- **A run reads and writes only the names that its tree mentions.**  From states that look the
same at these names, whether bindings or values are looked at, it ends after the same number of
steps or not at all, with the same result, and in states that look the same there.  At every step of
a run, and behind it, each name that is no target has the binding that it had before, no name has
lost its binding, and there are at most as many new bindings as there are targets. -/
theorem evaluation_is_local (n : Node) :
    (∀ {s t : State}, s.SameOn Table.get? n.names t → ∀ fuel,
      Option.Rel (fun o o' => o.1 = o'.1 ∧ o.2.SameOn Table.get? n.names o'.2)
        (evaluate fuel n s) (evaluate fuel n t)) ∧
    (∀ {s t : State}, s.SameOn Table.read n.names t → ∀ fuel,
      Option.Rel (fun o o' => o.1 = o'.1 ∧ o.2.SameOn Table.read n.names o'.2)
        (evaluate fuel n s) (evaluate fuel n t)) ∧
    n.targets.Nodup ∧
    ∀ s : State, (∀ m, (Machine.start n s).Reaches m → s.table.Grown n.targets m.state.table) ∧
      ∀ fuel r s', evaluate fuel n s = some (r, s') → s.table.Grown n.targets s'.table := by
  refine ⟨evaluate_sameOn look_get? n, evaluate_sameOn look_read n, n.nodup_targets, fun s => ?_⟩
  refine ⟨fun m => grown_of_reaches, fun fuel r s' h => ?_⟩
  obtain ⟨m, hm, rfl⟩ := Machine.exists_reaches_of_run h
  exact grown_of_reaches hm

/-- A division by zero behind an assignment does not see `y`, which the tree does not mention, and
leaves it as it is. -/
theorem fault_ignores_other_binding :
    ∃ s t : State,
      evaluate 20 (.block [.assign "x" (.number 3), .binary .div (.var "x") (.var "z")])
        (State.start (.script [])) = some (.error .divisionByZero, s) ∧
      evaluate 20 (.block [.assign "x" (.number 3), .binary .div (.var "x") (.var "z")])
        ((State.start (.script [])).assign "y" (.text "kept")) =
          some (.error .divisionByZero, t) ∧
      s.SameOn Table.get? ["z", "x"] t ∧ t.table.get? "y" = some (.text "kept") ∧
      t.table.size ≤ 2 := by
  let tree : Node := .block [.assign "x" (.number 3), .binary .div (.var "x") (.var "z")]
  let first : State := .start (.script [])
  let second : State := first.assign "y" (.text "kept")
  have hnames : tree.names = ["z", "x"] := by decide +kernel
  have htargets : tree.targets = ["x"] := by decide +kernel
  have hsame : first.SameOn Table.get? tree.names second := ⟨rfl, rfl, by rw [hnames]; decide⟩
  obtain ⟨s, hs⟩ : ∃ s, evaluate 20 tree first = some (.error .divisionByZero, s) := ⟨_, rfl⟩
  obtain ⟨t, ht⟩ : ∃ t, evaluate 20 tree second = some (.error .divisionByZero, t) := ⟨_, rfl⟩
  obtain ⟨hread, -, -, hwrite⟩ := evaluation_is_local tree
  have hrun := hread hsame 20
  have hgrown := (hwrite second).2 20 _ t ht
  rw [hs, ht, hnames] at hrun
  rw [htargets] at hgrown
  cases hrun with
  | some ho =>
      refine ⟨s, t, hs, ht, ho.2, ?_, hgrown.size⟩
      exact hgrown.others "y" (by decide)

end Treewalk
