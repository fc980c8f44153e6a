import Treewalk.Proofs.Evaluation.Locality
import Treewalk.Proofs.Evaluation.Loops

/-!
# Evaluation — The counting loop

`while (i < n) { …; i = i + 1; }` makes one pass for each integer from the first value of `i` up to
that of `n`, whatever else its body does: it may print, read and branch, and assign other names.

* `Node.Straight.evaluates`: a tree without loops, quotients and remainders ends without a fault.
* `Evaluates.get?_eq`: what is no target of a tree keeps its binding.
* `State.Counts.exists_pass`: so one pass runs the body and takes `i` one up, which does not wrap
  around below the value of `n`.
* `counting_loop_passes`: the whole loop, by the trail of its passes.
-/

namespace Treewalk

/-! ### Trees that cannot fault -/

/-- The node itself is a loop, a quotient or a remainder. -/
def Node.hazard : Node → Bool
  | loop _ _ => true
  | binary .div _ _ => true
  | binary .mod _ _ => true
  | _ => false

/-- No loop, no quotient and no remainder occurs in the tree. -/
def Node.Straight (n : Node) : Prop := ∀ m : Node, m.Part n → m.hazard = false

theorem Node.straight_iff {n : Node} :
    n.Straight ↔ n.hazard = false ∧ ∀ c ∈ n.children, c.Straight :=
  Node.forall_part_iff

theorem Node.Straight.child {n c : Node} (h : n.Straight) (hc : c ∈ n.children) : c.Straight :=
  (Node.straight_iff.mp h).2 c hc

/-- Nodes that end without a fault in every state do so one after another. -/
theorem Evaluates.exists_sequence (ss : List Node)
    (h : ∀ n ∈ ss, ∀ s, ∃ v s', Evaluates (.node n) s (.ok v) s') (s : State) :
    ∃ s', Evaluates (.sequence ss) s (.ok .unit) s' := by
  induction ss generalizing s with
  | nil => exact ⟨s, .nil⟩
  | cons n ss ih =>
      rw [List.forall_mem_cons] at h
      obtain ⟨v, s₁, hn⟩ := h.1 s
      obtain ⟨s', hs⟩ := ih h.2 s₁
      exact ⟨s', .cons hn hs⟩

theorem Operator.exists_apply {op : Operator} (hd : op ≠ .div) (hm : op ≠ .mod) (a b : Int64) :
    ∃ n, op.apply a b = .ok n := by
  cases op with
  | div => exact absurd rfl hd
  | mod => exact absurd rfl hm
  | _ => exact ⟨_, rfl⟩

/-- **A tree without loops, quotients and remainders ends without a fault.** -/
theorem Node.Straight.evaluates {n : Node} (h : n.Straight) (s : State) :
    ∃ v s', Evaluates (.node n) s (.ok v) s' := by
  induction n using Node.induction_children generalizing s with
  | h n ih =>
      have hchild : ∀ c ∈ n.children, ∀ s, ∃ v s', Evaluates (.node c) s (.ok v) s' :=
        fun c hc s => ih c hc (h.child hc) s
      cases n with
      | number k => exact ⟨_, _, .number⟩
      | text x => exact ⟨_, _, .text⟩
      | var x => exact ⟨_, _, .var⟩
      | input x => exact ⟨_, _, .input (s.asks_ask x)⟩
      | assign x e =>
          obtain ⟨v, s', he⟩ := hchild e List.mem_cons_self s
          exact ⟨_, _, .assign he⟩
      | print e =>
          obtain ⟨v, s', he⟩ := hchild e List.mem_cons_self s
          exact ⟨_, _, .print he⟩
      | binary op l r =>
          have hop : op ≠ .div ∧ op ≠ .mod := by
            have hself := (Node.straight_iff.mp h).1
            constructor
            · rintro rfl
              cases hself
            · rintro rfl
              cases hself
          obtain ⟨a, s₁, hl⟩ := hchild l List.mem_cons_self s
          obtain ⟨b, s₂, hr⟩ := hchild r (List.mem_cons_of_mem _ List.mem_cons_self) s₁
          obtain ⟨k, hk⟩ := Operator.exists_apply hop.1 hop.2 a.toInt b.toInt
          exact ⟨_, _, .binary hl hr (Operator.apply_eq_iff.mp hk)⟩
      | branch c yes no =>
          obtain ⟨v, s₁, hc⟩ := hchild c List.mem_cons_self s
          by_cases hv : v.toInt = 0
          · obtain ⟨s', hs⟩ := Evaluates.exists_sequence no
              (fun m hm => hchild m (List.mem_cons_of_mem _ (List.mem_append_right _ hm))) s₁
            exact ⟨_, _, .branchNo hc hv hs⟩
          · obtain ⟨s', hs⟩ := Evaluates.exists_sequence yes
              (fun m hm => hchild m (List.mem_cons_of_mem _ (List.mem_append_left _ hm))) s₁
            exact ⟨_, _, .branchYes hc hv hs⟩
      | loop c body => cases (Node.straight_iff.mp h).1
      | block ss =>
          obtain ⟨s', hs⟩ := Evaluates.exists_sequence ss hchild s
          exact ⟨_, _, .block hs⟩

/-- What is no target of a tree keeps its binding. -/
theorem Evaluates.get?_eq {n : Node} {s s' : State} {r : Except Fault Value}
    (h : Evaluates (.node n) s r s') {x : String} (hx : x ∉ n.targets) :
    s'.table.get? x = s.table.get? x := by
  obtain ⟨fuel, hfuel⟩ := h.exists_evaluate
  obtain ⟨m, hm, rfl⟩ := Machine.exists_reaches_of_run hfuel
  exact (grown_of_reaches hm).others x hx

/-! ### One pass -/

/-- The condition `i < n`. -/
def Node.lessThan (i n : String) : Node := .binary .less (.var i) (.var n)

/-- The statement `i = i + 1;`. -/
def Node.increment (i : String) : Node := .assign i (.binary .add (.var i) (.number 1))

/-- The table binds `i` to `a` and `n` to `m`. -/
structure State.Counts (i n : String) (a m : Int64) (s : State) : Prop where
  index : s.table.get? i = some (.int a)
  limit : s.table.get? n = some (.int m)

namespace State.Counts

variable {i n : String} {a m : Int64} {s : State}

theorem read_index (h : s.Counts i n a m) : s.table.read i = .int a :=
  congrArg (·.getD .unit) h.index

theorem evaluates_lessThan (h : s.Counts i n a m) :
    Evaluates (.node (.lessThan i n)) s (.ok (.int (Value.ofBool (a < m)))) s := by
  have hn : s.table.read n = .int m := congrArg (·.getD .unit) h.limit
  have hless := Evaluates.binary (s := s) (.var (x := i)) (.var (x := n))
    (Operator.yields_apply .less _ _)
  rwa [h.read_index, hn] at hless

theorem evaluates_increment (h : s.Counts i n a m) :
    Evaluates (.node (.increment i)) s (.ok (.int (a + 1))) (s.assign i (.int (a + 1))) := by
  have hsum := Evaluates.binary (s := s) (.var (x := i)) (.number (n := 1))
    (Operator.yields_apply .add _ _)
  rw [h.read_index] at hsum
  exact .assign hsum

/-- **One pass of the counting loop**: below the limit, the body runs once, and `i` goes one up. -/
theorem exists_pass (h : s.Counts i n a m) (hin : i ≠ n) (hlt : a < m) {ss : List Node}
    (hss : (Node.block ss).Straight) (hi : i ∉ (Node.block ss).targets)
    (hn : n ∉ (Node.block ss).targets) :
    ∃ u, Evaluates (.node (.block ss)) s (.ok .unit) u ∧
      Pass (.lessThan i n) (ss ++ [.increment i]) s (u.assign i (.int (a + 1))) ∧
      (u.assign i (.int (a + 1))).Counts i n (a + 1) m := by
  obtain ⟨u, hu⟩ := Evaluates.exists_sequence ss (fun c hc s => (hss.child hc).evaluates s) s
  have hblock : Evaluates (.node (.block ss)) s (.ok .unit) u := .block hu
  have hcounts : u.Counts i n a m :=
    ⟨(hblock.get?_eq hi).trans h.index, (hblock.get?_eq hn).trans h.limit⟩
  refine ⟨u, hblock, ⟨_, .unit, s, h.evaluates_lessThan, ?_, ?_⟩, ?_, ?_⟩
  · simp [Value.ofBool, hlt, Value.toInt]
  · refine Evaluates.sequence_append_iff.mpr (.inr ⟨_, u, hu, ?_⟩)
    exact .cons hcounts.evaluates_increment .nil
  · simp [State.assign]
  · simpa [State.assign, hin.symm] using hcounts.limit

end State.Counts

/-! ### The whole loop -/

/-- What is between two words is a word. -/
theorem Int64.toInt_ofInt_add {a m : Int64} {j : Nat} (h : j ≤ (m.toInt - a.toInt).toNat) :
    (Int64.ofInt (a.toInt + j)).toInt = a.toInt + j := by
  have hlo := a.le_toInt
  have ha := a.toInt_lt
  have hm := m.toInt_lt
  exact Int64.toInt_ofInt_of_le (by omega) (by omega)

/-- Behind the last pass `i` has the greater of the two values. -/
theorem Int64.ofInt_add_sub (a m : Int64) :
    Int64.ofInt (a.toInt + (m.toInt - a.toInt).toNat) = max a m := by
  have hmax : max a m = if a ≤ m then m else a := rfl
  rw [← Int64.toInt_inj, Int64.toInt_ofInt_add (Nat.le_refl _), hmax]
  split
  · next h =>
      rw [Int64.le_iff_toInt_le] at h
      omega
  · next h =>
      rw [Int64.le_iff_toInt_le] at h
      omega

section Counting

variable {i n : String} {a m : Int64} {ss : List Node} {s : State}

/-- The passes of the counting loop, one for each integer below the limit. -/
theorem exists_counting_trail (hin : i ≠ n) (hss : (Node.block ss).Straight)
    (hi : i ∉ (Node.block ss).targets) (hn : n ∉ (Node.block ss).targets)
    (hs : s.Counts i n a m) :
    ∃ trail : Nat → State, trail 0 = s ∧
      (∀ j ≤ (m.toInt - a.toInt).toNat, (trail j).Counts i n (.ofInt (a.toInt + j)) m) ∧
      ∀ j < (m.toInt - a.toInt).toNat, ∃ u,
        Evaluates (.node (.block ss)) (trail j) (.ok .unit) u ∧
        Pass (.lessThan i n) (ss ++ [.increment i]) (trail j) (trail (j + 1)) ∧
        trail (j + 1) = u.assign i (.int (.ofInt (a.toInt + j + 1))) := by
  refine exists_trail (P := fun j t => t.Counts i n (.ofInt (a.toInt + j)) m)
    (R := fun j t t' => ∃ u, Evaluates (.node (.block ss)) t (.ok .unit) u ∧
      Pass (.lessThan i n) (ss ++ [.increment i]) t t' ∧
        t' = u.assign i (.int (.ofInt (a.toInt + j + 1)))) ?_ _ ?_
  · simpa using hs
  · intro j hj t ht
    have hlt : Int64.ofInt (a.toInt + j) < m := by
      rw [Int64.lt_iff_toInt_lt, Int64.toInt_ofInt_add (Nat.le_of_lt hj)]
      omega
    obtain ⟨u, hu, hpass, hcounts⟩ := ht.exists_pass hin hlt hss hi hn
    have hnext : Int64.ofInt (a.toInt + j) + 1 = .ofInt (a.toInt + j + 1) :=
      (Int64.ofInt_add _ 1).symm
    rw [hnext] at hpass hcounts
    refine ⟨_, ⟨u, hu, hpass, rfl⟩, ?_⟩
    rwa [Int.natCast_succ, ← Int.add_assoc]

/-- **The counting loop makes one pass for each integer below its limit.**  Let `i` be bound to `a`
and `n` to `m`, and let the statements `ss` hold no loop, no quotient and no remainder, and neither
assign nor input `i` or `n`.  Then `while (i < n)` with body `ss` and `i = i + 1;` ends without a
fault.  It reports `m - a` passes, or none if that is below zero, and the counter does not wrap
around.  The states before the passes are a trail from the first state to the last: on each of them
`ss` runs once, and `i` goes one up, until it is the greater of `a` and `m`. -/
theorem counting_loop_passes (hin : i ≠ n) (hss : (Node.block ss).Straight)
    (hi : i ∉ (Node.block ss).targets) (hn : n ∉ (Node.block ss).targets)
    (ha : s.table.get? i = some (.int a)) (hm : s.table.get? n = some (.int m)) :
    ∃ (passes : UInt64) (trail : Nat → State) (s' : State),
      (passes.toNat : Int) = max 0 (m.toInt - a.toInt) ∧
      (∃ enough, ∀ fuel ≥ enough,
        evaluate fuel (.loop (.lessThan i n) (ss ++ [.increment i])) s = some (.ok .unit, s') ∧
        (Request.loop (.lessThan i n) (ss ++ [.increment i])).drive (evaluate fuel) fuel s =
          some (.ok passes, s')) ∧
      s'.table.get? i = some (.int (max a m)) ∧ s'.table.get? n = some (.int m) ∧
      trail 0 = s ∧ trail passes.toNat = s' ∧
      ∀ j < passes.toNat, ∃ u,
        (∃ fuel, evaluate fuel (.block ss) (trail j) = some (.ok .unit, u)) ∧
          trail (j + 1) = u.assign i (.int (.ofInt (a.toInt + j + 1))) := by
  obtain ⟨trail, hzero, hcounts, hpasses⟩ := exists_counting_trail hin hss hi hn ⟨ha, hm⟩
  generalize hk : (m.toInt - a.toInt).toNat = k at hcounts hpasses
  have hlast : (trail k).Counts i n (max a m) m := by
    rw [← Int64.ofInt_add_sub, hk]
    exact hcounts k (Nat.le_refl k)
  have hnat : (UInt64.ofNat k).toNat = k := by
    have hlo := a.le_toInt
    have hhi := m.toInt_lt
    rw [UInt64.toNat_ofNat', Nat.mod_eq_of_lt (by omega)]
  have htrail : Trail (.lessThan i n) (ss ++ [.increment i]) trail k (trail k) := by
    refine ⟨fun j hj => ?_, _, hlast.evaluates_lessThan, ?_⟩
    · obtain ⟨u, -, hpass, -⟩ := hpasses j hj
      exact hpass
    · have hge : ¬ max a m < m := by
        rw [Int64.lt_iff_toInt_lt, ← Int64.ofInt_add_sub, Int64.toInt_ofInt_add (Nat.le_refl _)]
        omega
      simp [Value.ofBool, hge, Value.toInt]
  obtain ⟨steps, hsteps⟩ := (Evaluates.loop_of_trail htrail).exists_evaluate
  obtain ⟨enough, hdrive⟩ := driven_of_trail htrail
  rw [hzero] at hsteps hdrive
  refine ⟨.ofNat k, trail, trail k, ?_, ⟨max steps enough, fun fuel hfuel => ⟨?_, ?_⟩⟩,
    hlast.index, hlast.limit, hzero, by rw [hnat], fun j hj => ?_⟩
  · rw [hnat, ← hk]
    omega
  · exact Machine.run_mono hsteps (by omega)
  · exact hdrive fuel (by omega) fuel (by omega)
  · obtain ⟨u, hu, -, hnext⟩ := hpasses j (hnat ▸ hj)
    exact ⟨u, hu.exists_evaluate, hnext⟩

end Counting

/-- Up to the greatest word the index does not wrap around, while each pass prints it and reads
another name. -/
theorem counting_to_greatest_word :
    let body : List Node := [.print (.var "i"), .input "x"]
    let s : State := ((State.start (.script [.line "7"])).assign "i"
      (.int 9223372036854775805)).assign "n" (.int 9223372036854775807)
    ∃ fuel s', (Request.loop (.lessThan "i" "n") (body ++ [.increment "i"])).drive (evaluate fuel)
        fuel s = some (.ok 2, s') ∧
      s'.table.get? "i" = some (.int 9223372036854775807) := by
  intro body s
  have hvar : (Node.var "i").Straight := Node.straight_iff.mpr ⟨rfl, List.forall_mem_nil _⟩
  have hprint : (Node.print (.var "i")).Straight :=
    Node.straight_iff.mpr ⟨rfl, by simpa [Node.children] using hvar⟩
  have hinput : (Node.input "x").Straight := Node.straight_iff.mpr ⟨rfl, List.forall_mem_nil _⟩
  have hbody : (Node.block body).Straight :=
    Node.straight_iff.mpr ⟨rfl, by simpa [Node.children, body] using ⟨hprint, hinput⟩⟩
  obtain ⟨passes, -, s', hpasses, ⟨fuel, hrun⟩, hindex, -⟩ :=
    counting_loop_passes (i := "i") (n := "n") (s := s) (by decide) hbody (by decide +kernel)
      (by decide +kernel) rfl rfl
  have htwo : passes = 2 := by
    rw [← UInt64.toNat_inj]
    have hdiff : max 0 ((9223372036854775807 : Int64).toInt -
        (9223372036854775805 : Int64).toInt) = 2 := by decide
    rw [hdiff] at hpasses
    exact Int.ofNat_inj.mp hpasses
  refine ⟨fuel, s', ?_, hindex⟩
  rw [← htwo]
  exact (hrun fuel (Nat.le_refl fuel)).2

end Treewalk
