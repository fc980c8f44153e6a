import Treewalk.Proofs.Program.Concatenation

/-!
# Program — How many nodes a program has

The nodes of a tree are counted on a walk with a list of pending nodes, one node in each round.
Which of them is taken does not matter, nor the order in which those below it are put in its place
(`Node.Round`): a round leaves one node less in all pending trees together.  So every walk ends, and
it ends after as many rounds as the tree has nodes.

* `Node.Rounds.sizes_eq`: what is counted and what is pending add up to the size of the tree.
* `Node.fold_rounds`: the walk that counts is made of such rounds.
* `count_is_size`: the count of a tree is its size, and the counts of two programs, one on the lines
  behind the other, add up to that of both with one root less.
-/

namespace Treewalk

open Grammar Treewalk.Symbol

namespace Node

/-! ### Sizes -/

theorem size_pos (n : Node) : 0 < n.size := by
  rw [size_eq_sizes_children]
  exact Nat.succ_pos _

theorem sizes_eq_zero_iff {ns : List Node} : sizes ns = 0 ↔ ns = [] := by
  cases ns with
  | nil => simp [sizes]
  | cons n ns =>
      have hn := n.size_pos
      simp only [sizes, reduceCtorEq, iff_false]
      omega

theorem sizes_perm {ms ns : List Node} (h : ms.Perm ns) : sizes ms = sizes ns := by
  induction h with
  | nil => rfl
  | cons n _ ih => rw [sizes, sizes, ih]
  | swap m n ns =>
      simp only [sizes]
      omega
  | trans _ _ ih₁ ih₂ => exact ih₁.trans ih₂

/-! ### Walks -/

/-- One round of a walk: a pending node is taken, whichever it is, and the nodes right below it
become pending. -/
inductive Round : List Node → List Node → Prop where
  | visit {ms ns rest : List Node} {n : Node} (taken : ms.Perm (n :: rest))
      (left : ns.Perm (n.children ++ rest)) : Round ms ns

/-- So many rounds, one after another. -/
inductive Rounds : Nat → List Node → List Node → Prop where
  | refl {ns : List Node} : Rounds 0 ns ns
  | more {k : Nat} {ms ls ns : List Node} : Round ms ls → Rounds k ls ns → Rounds (k + 1) ms ns

/-- A round takes one node. -/
theorem Round.sizes_eq {ms ns : List Node} (h : Round ms ns) : sizes ms = sizes ns + 1 := by
  obtain ⟨htaken, hleft⟩ := h
  rw [sizes_perm htaken, sizes_perm hleft, sizes, sizes_append, size_eq_sizes_children]
  omega

theorem Rounds.sizes_eq {k : Nat} {ms ns : List Node} (h : Rounds k ms ns) :
    sizes ms = k + sizes ns := by
  induction h with
  | refl => rw [Nat.zero_add]
  | more hround _ ih =>
      rw [hround.sizes_eq, ih]
      omega

/-- As long as a node is pending, a walk goes on. -/
theorem exists_round {ms : List Node} (h : ms ≠ []) : ∃ ns, Round ms ns := by
  obtain ⟨n, rest, rfl⟩ := List.exists_cons_of_ne_nil h
  exact ⟨n.children ++ rest, .visit (.refl _) (.refl _)⟩

/-- A walk of a tree ends after as many rounds as the tree has nodes, and not before. -/
theorem Rounds.ended_iff {k : Nat} {n : Node} {ns : List Node} (h : Rounds k [n] ns) :
    k ≤ n.size ∧ (ns = [] ↔ k = n.size) := by
  have hsizes : n.size = k + sizes ns := by
    rw [← h.sizes_eq, sizes, sizes, Nat.add_zero]
  rw [← sizes_eq_zero_iff]
  omega

/-- A walk that counts is a walk of as many rounds as it has counted. -/
theorem fold_rounds (done : Nat) (pending : List Node) {k : Nat} (hk : k ≤ sizes pending) :
    ∃ left, Rounds k pending left ∧
      fold (fun k _ => k + 1) done pending = fold (fun k _ => k + 1) (done + k) left := by
  induction k generalizing done pending with
  | zero => exact ⟨pending, .refl, rfl⟩
  | succ k ih =>
      cases pending with
      | nil => exact absurd hk (by simp [sizes])
      | cons n pending =>
          have hround : Round (n :: pending) (n.children ++ pending) := .visit (.refl _) (.refl _)
          have hsizes := hround.sizes_eq
          obtain ⟨left, hrounds, hfold⟩ := ih (done + 1) (n.children ++ pending) (by omega)
          refine ⟨left, .more hround hrounds, ?_⟩
          rw [fold, hfold, Nat.add_assoc, Nat.add_comm 1 k]

/-- What has been counted and what is pending add up. -/
theorem fold_count (done : Nat) (pending : List Node) :
    fold (fun k _ => k + 1) done pending = done + sizes pending := by
  obtain ⟨left, hrounds, hfold⟩ := fold_rounds done pending (Nat.le_refl _)
  have hleft : left = [] := sizes_eq_zero_iff.mp (by have := hrounds.sizes_eq; omega)
  rw [hfold, hleft, fold]

theorem count_eq_size (n : Node) : n.count = n.size := by
  rw [count, fold_count, sizes, sizes, Nat.zero_add, Nat.add_zero]

end Node

/-! ### Programs -/

/-- **The count of a tree is its size.**  Every walk, whichever pending node it takes in each round,
ends after as many rounds as the tree has nodes, and not before; the one that counts is such a walk.
Two programs, one on the lines behind the other, have as many nodes as both together, less one root.
-/
theorem count_is_size :
    (∀ n : Node,
      n.count = n.size ∧
      (∀ k ≤ n.size, ∃ pending, Node.Rounds k [n] pending ∧
        n.count = Node.fold (fun k _ => k + 1) k pending) ∧
      ∀ k pending, Node.Rounds k [n] pending →
        k ≤ n.size ∧ (pending = [] ↔ k = n.size) ∧
          (pending ≠ [] → ∃ left, Node.Round pending left)) ∧
    ∀ (z : String) {x y a b : String} {m n : Node},
      Script.tree ⟨x, a⟩ = .ok m → Script.tree ⟨y, b⟩ = .ok n →
        ∃ root, Script.tree ⟨z, a ++ "\n" ++ b⟩ = .ok root ∧
          root.count = m.count + n.count - 1 := by
  refine ⟨fun n => ⟨n.count_eq_size, fun k hk => ?_, fun k pending h => ?_⟩, ?_⟩
  · have hk' : k ≤ Node.sizes [n] := by simpa [Node.sizes] using hk
    obtain ⟨pending, hrounds, hfold⟩ := Node.fold_rounds 0 [n] hk'
    rw [Nat.zero_add] at hfold
    exact ⟨pending, hrounds, hfold⟩
  · obtain ⟨hle, hended⟩ := h.ended_iff
    exact ⟨hle, hended, Node.exists_round⟩
  · intro z x y a b m n hm hn
    obtain ⟨_, -, ms, -, rfl⟩ := Script.tree_eq_ok_iff.mp hm
    obtain ⟨_, -, ns, -, rfl⟩ := Script.tree_eq_ok_iff.mp hn
    refine ⟨_, Script.tree_append_line hm hn, ?_⟩
    simp only [Node.count_eq_size, Node.size, Node.sizes_append]
    omega

/-- Behind a comment, a second program adds its nodes to those of the first, but for its root. -/
theorem nodes_behind_comment :
    ∃ m n root,
      Script.tree ⟨"first", "x = -y; // one"⟩ = .ok m ∧
      Script.tree ⟨"second", "input x;"⟩ = .ok n ∧
      Script.tree ⟨"both", "x = -y; // one" ++ "\n" ++ "input x;"⟩ = .ok root ∧
      m.count = 5 ∧ n.count = 2 ∧ root.count = 6 := by
  have hfirst : Script.tree ⟨"first", "x = -y; // one"⟩ =
      .ok (.block [.assign "x" (.binary .sub (.number 0) (.var "y"))]) := by
    refine Script.tree_eq_ok_iff.mpr ⟨[.name "x", .mark .assign, .mark .minus, .name "y",
      .mark .semicolon], ?_, _, ?_, rfl⟩
    · have htext : ofText "x = -y; // one".toList = [.kind (.name "x"), .kind (.mark .assign),
          .kind (.mark .minus), .kind (.name "y"), .kind (.mark .semicolon)] := by decide +kernel
      rw [htext]
      exact .cons rfl (.cons rfl (.cons rfl (.cons rfl (.cons rfl .nil))))
    · have hminus : Expression .unary [.mark .minus, .name "y"]
          (.binary .sub (.number 0) (.var "y")) := .minus (.tighter .name) (by simp)
      exact .cons (.assign (.tighter (.tighter (.tighter (.tighter hminus))))) .nil
  have hsecond : Script.tree ⟨"second", "input x;"⟩ = .ok (.block [.input "x"]) := by
    refine Script.tree_eq_ok_iff.mpr ⟨[.keyword .input, .name "x", .mark .semicolon], ?_, _,
      .cons .input .nil, rfl⟩
    have htext : ofText "input x;".toList =
        [.kind (.keyword .input), .kind (.name "x"), .kind (.mark .semicolon)] := by decide +kernel
    rw [htext]
    exact .cons rfl (.cons rfl (.cons rfl .nil))
  obtain ⟨hsize, hjoin⟩ := count_is_size
  obtain ⟨root, hroot, hcount⟩ := hjoin "both" hfirst hsecond
  refine ⟨_, _, root, hfirst, hsecond, hroot, (hsize _).1, (hsize _).1, ?_⟩
  rw [hcount, (hsize _).1, (hsize _).1]
  rfl

end Treewalk
