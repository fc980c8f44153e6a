import Treewalk.Tree.Basic

/-!
# Tree — Parts of a tree

A part of a tree is the tree itself or a part of a node right below it (`Node.Part`).  The names of
a tree are those of its parts: `Node.names` lists every name that a part assigns, inputs or reads,
and `Node.targets` every name that a part assigns or inputs, each once.

Both are gathered on a walk, which passes every part (`mem_gathered_iff`).  On such a walk it is
also decided whether all parts of a tree have a property (`all_iff`).  Proofs about all nodes go by
induction on the nodes right below one (`induction_children`).
-/

namespace Treewalk.Node

/-- `m.Part n`: the node `m` is `n` or stands somewhere below it. -/
inductive Part : Node → Node → Prop where
  | refl {n : Node} : Part n n
  | child {m c n : Node} : c ∈ n.children → Part m c → Part m n

/-- A part of a node is the node, or part of a node right below it. -/
theorem part_iff {m n : Node} : m.Part n ↔ m = n ∨ ∃ c ∈ n.children, m.Part c := by
  constructor
  · intro h
    cases h with
    | refl => exact .inl rfl
    | child hc hm => exact .inr ⟨_, hc, hm⟩
  · rintro (rfl | ⟨c, hc, hm⟩)
    · exact .refl
    · exact .child hc hm

/-- A node right below a part is a part. -/
theorem Part.children {m n c : Node} (h : m.Part n) (hc : c ∈ m.children) : c.Part n := by
  induction h with
  | refl => exact .child hc .refl
  | child hmem _ ih => exact .child hmem ih

/-- What holds of every part of a node holds of the node and of every part of a node right below. -/
theorem forall_part_iff {P : Node → Prop} {n : Node} :
    (∀ m : Node, m.Part n → P m) ↔ P n ∧ ∀ c ∈ n.children, ∀ m : Node, m.Part c → P m := by
  constructor
  · exact fun h => ⟨h n .refl, fun c hc m hm => h m (.child hc hm)⟩
  · rintro ⟨hn, hc⟩ m hm
    rcases part_iff.mp hm with rfl | ⟨c, hmem, hm⟩
    · exact hn
    · exact hc c hmem m hm

/-! ### Properties of all parts -/

/-- Every node of the tree passes the test. -/
def all (p : Node → Bool) (n : Node) : Bool :=
  fold (fun passed m => passed && p m) true [n]

theorem fold_and_iff {p : Node → Bool} (passed : Bool) (pending : List Node) :
    fold (fun passed m => passed && p m) passed pending = true ↔
      passed = true ∧ ∀ n ∈ pending, ∀ m : Node, m.Part n → p m = true := by
  fun_induction fold (fun passed m => passed && p m) passed pending with
  | case1 passed => simp
  | case2 passed n pending ih =>
      rw [ih, Bool.and_eq_true, List.forall_mem_append, List.forall_mem_cons, forall_part_iff,
        and_assoc, and_assoc]

theorem all_iff {p : Node → Bool} {n : Node} :
    n.all p = true ↔ ∀ m : Node, m.Part n → p m = true := by
  simp [all, fold_and_iff]

instance (P : Node → Prop) [DecidablePred P] (n : Node) :
    Decidable (∀ m : Node, m.Part n → P m) :=
  decidable_of_iff (n.all fun m => decide (P m)) (by simp [all_iff])

/-! ### Induction -/

theorem size_le_sizes {c : Node} : ∀ {ns : List Node}, c ∈ ns → c.size ≤ sizes ns
  | n :: ns, h => by
      rw [sizes]
      rcases List.mem_cons.mp h with rfl | h
      · exact Nat.le_add_right _ _
      · exact Nat.le_trans (size_le_sizes h) (Nat.le_add_left _ _)

/-- What holds of a node whenever it holds of the nodes right below it holds of every node. -/
@[elab_as_elim]
theorem induction_children {P : Node → Prop} (n : Node)
    (h : ∀ n : Node, (∀ c ∈ n.children, P c) → P n) : P n := by
  generalize hk : n.size = k
  induction k using Nat.strongRecOn generalizing n with
  | ind k ih =>
      refine h n fun c hc => ih c.size ?_ c rfl
      rw [← hk, size_eq_sizes_children n]
      exact Nat.lt_succ_of_le (size_le_sizes hc)

/-! ### Names -/

/-- The name that the node itself assigns or inputs. -/
def target? : Node → Option String
  | assign x _ => some x
  | input x => some x
  | _ => none

/-- The names with the one that `f` finds at the node, if it is new. -/
def gather (f : Node → Option String) (xs : List String) (m : Node) : List String :=
  match f m with
  | some x => if xs.contains x then xs else x :: xs
  | none => xs

/-- The names that are assigned or input in the tree, each once. -/
def targets (n : Node) : List String :=
  fold (gather target?) [] [n]

theorem mem_gather_iff {f : Node → Option String} {xs : List String} {m : Node} {x : String} :
    x ∈ gather f xs m ↔ x ∈ xs ∨ f m = some x := by
  unfold gather
  split
  · next y hy =>
      rw [hy, Option.some.injEq]
      by_cases hmem : y ∈ xs
      · simp only [List.contains_eq_mem, hmem, decide_true, if_true]
        refine ⟨.inl, ?_⟩
        rintro (h | rfl)
        · exact h
        · exact hmem
      · simp [hmem, eq_comm, or_comm]
  · next hnone => simp [hnone]

theorem nodup_gather {f : Node → Option String} {xs : List String} (h : xs.Nodup) (m : Node) :
    (gather f xs m).Nodup := by
  unfold gather
  split
  · split
    · exact h
    · next hmem => exact List.nodup_cons.mpr ⟨by simpa using hmem, h⟩
  · exact h

/-- **A walk passes every part** of the trees that are pending. -/
theorem mem_gathered_iff {f : Node → Option String} {x : String} (xs : List String)
    (pending : List Node) :
    x ∈ fold (gather f) xs pending ↔
      x ∈ xs ∨ ∃ n ∈ pending, ∃ m, m.Part n ∧ f m = some x := by
  fun_induction fold (gather f) xs pending with
  | case1 xs => simp
  | case2 xs n pending ih =>
      have hpart : (∃ m, m.Part n ∧ f m = some x) ↔
          f n = some x ∨ ∃ c ∈ n.children, ∃ m, m.Part c ∧ f m = some x := by
        constructor
        · rintro ⟨m, hm, hx⟩
          rcases part_iff.mp hm with rfl | ⟨c, hc, hm⟩
          · exact .inl hx
          · exact .inr ⟨c, hc, m, hm, hx⟩
        · rintro (hx | ⟨c, hc, m, hm, hx⟩)
          · exact ⟨n, .refl, hx⟩
          · exact ⟨m, .child hc hm, hx⟩
      rw [ih, mem_gather_iff]
      simp only [List.mem_append, List.mem_cons, or_and_right, exists_or, exists_eq_left, hpart,
        or_assoc]

theorem nodup_gathered {f : Node → Option String} (xs : List String) (pending : List Node)
    (h : xs.Nodup) : (fold (gather f) xs pending).Nodup := by
  fun_induction fold (gather f) xs pending with
  | case1 xs => exact h
  | case2 xs n pending ih => exact ih (nodup_gather h n)

/-- The names of a tree are those of its parts. -/
theorem mem_names_iff {n : Node} {x : String} :
    x ∈ n.names ↔ ∃ m : Node, m.Part n ∧ m.name? = some x := by
  have h : n.names = fold (gather name?) [] [n] := rfl
  rw [h, mem_gathered_iff]
  simp

/-- The targets of a tree are those of its parts. -/
theorem mem_targets_iff {n : Node} {x : String} :
    x ∈ n.targets ↔ ∃ m : Node, m.Part n ∧ m.target? = some x := by
  rw [targets, mem_gathered_iff]
  simp

theorem nodup_targets (n : Node) : n.targets.Nodup :=
  nodup_gathered [] [n] List.nodup_nil

theorem mem_names_of_child {c n : Node} (hc : c ∈ n.children) {x : String} (hx : x ∈ c.names) :
    x ∈ n.names := by
  obtain ⟨m, hm, hx⟩ := mem_names_iff.mp hx
  exact mem_names_iff.mpr ⟨m, .child hc hm, hx⟩

theorem mem_targets_of_child {c n : Node} (hc : c ∈ n.children) {x : String}
    (hx : x ∈ c.targets) : x ∈ n.targets := by
  obtain ⟨m, hm, hx⟩ := mem_targets_iff.mp hx
  exact mem_targets_iff.mpr ⟨m, .child hc hm, hx⟩

end Treewalk.Node
