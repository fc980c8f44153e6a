import Treewalk.Proofs.Evaluation.Equivalence

/-!
# Evaluation — Loops

A loop is its first check and, if that holds, its body and the loop again (`loop_unfolds`).

A loop that ends without a fault has made a number of passes.  `Pass c body s s'` is one of them,
and a trail is the states before each.  Where a trail ends at a check that fails,

* `Evaluates.loop_of_trail`: the loop ends there;
* `driven_of_trail`: carried through with the machine for an evaluator, it reports the number of
  passes, which wraps around (`Request.Driven`).
-/

namespace Treewalk

open Machine

variable {c : Node} {body : List Node}

/-! ### Unfolding -/

/-- A loop has no value of its own. -/
theorem Evaluates.loop_unit {s s' : State} {v : Value}
    (h : Evaluates (.node (.loop c body)) s (.ok v) s') : v = .unit := by
  generalize ht : Task.node (.loop c body) = t, hr : Except.ok v = r at h
  induction h with
  | loopEnd => cases ht; cases hr; rfl
  | loopPass _ _ _ _ _ _ ih => cases ht; exact ih rfl hr
  | loopFault => cases hr
  | passFault => cases hr
  | _ => cases ht

/-- A loop that is the only statement of a sequence ends it as it ends itself. -/
theorem Evaluates.sequence_loop_iff {s s' : State} {r : Except Fault Value} :
    Evaluates (.sequence [.loop c body]) s r s' ↔ Evaluates (.node (.loop c body)) s r s' := by
  constructor
  · intro h
    cases h with
    | cons hl hnil =>
        cases hnil
        obtain rfl := hl.loop_unit
        exact hl
    | stop hl => exact hl
  · intro h
    cases r with
    | ok v =>
        obtain rfl := h.loop_unit
        exact .cons h .nil
    | error f => exact .stop h

theorem equivalent_unfolded (c : Node) (body : List Node) :
    Equivalent (.loop c body) (.branch c (body ++ [.loop c body]) []) := by
  intro s r s'
  constructor
  · intro h
    cases h with
    | loopEnd hc hv => exact .branchNo hc hv .nil
    | loopPass hc hv hb hl =>
        refine .branchYes hc hv (Evaluates.sequence_append_iff.mpr (.inr ⟨_, _, hb, ?_⟩))
        exact Evaluates.sequence_loop_iff.mpr hl
    | loopFault hc => exact .branchFault hc
    | passFault hc hv hb =>
        exact .branchYes hc hv (Evaluates.sequence_append_iff.mpr (.inl ⟨_, rfl, hb⟩))
  · intro h
    cases h with
    | branchYes hc hv hs =>
        rcases Evaluates.sequence_append_iff.mp hs with ⟨f, rfl, hb⟩ | ⟨w, s₂, hb, hl⟩
        · exact .passFault hc hv hb
        · exact .loopPass hc hv hb (Evaluates.sequence_loop_iff.mp hl)
    | branchNo hc hv hs =>
        cases hs
        exact .loopEnd hc hv
    | branchFault hc => exact .loopFault hc

/-- **A loop is its first check and, if that holds, its body and the loop again**: in every state
the two end alike, with the same result, which is a fault or none, in the same state, or neither
ends. -/
theorem loop_unfolds (c : Node) (body : List Node) (s : State) :
    (∀ o, (∃ fuel, evaluate fuel (.loop c body) s = some o) ↔
      ∃ fuel, evaluate fuel (.branch c (body ++ [.loop c body]) []) s = some o) ∧
    ((∀ fuel, evaluate fuel (.loop c body) s = none) ↔
      ∀ fuel, evaluate fuel (.branch c (body ++ [.loop c body]) []) s = none) ∧
    ∀ fuel r s', evaluate fuel (.loop c body) s = some (r, s') →
      r = .ok .unit ∨ ∃ f, r = .error f := by
  have hends : ∀ o, (∃ fuel, evaluate fuel (.loop c body) s = some o) ↔
      ∃ fuel, evaluate fuel (.branch c (body ++ [.loop c body]) []) s = some o :=
    fun ⟨r, s'⟩ => (equivalent_unfolded c body).iff_evaluate s r s'
  refine ⟨hends, ?_, fun fuel r s' h => ?_⟩
  · simp only [Option.eq_none_iff_forall_ne_some, ne_eq]
    constructor
    · intro h fuel o ho
      obtain ⟨fuel', hf⟩ := (hends o).mpr ⟨fuel, ho⟩
      exact h fuel' o hf
    · intro h fuel o ho
      obtain ⟨fuel', hf⟩ := (hends o).mp ⟨fuel, ho⟩
      exact h fuel' o hf
  · cases r with
    | ok v => exact .inl (by rw [(evaluates_of_evaluate h).loop_unit])
    | error f => exact .inr ⟨f, rfl⟩

/-! ### Passes -/

/-- One pass of the loop leads from `s` to `s'`: its condition holds, and its body ends without a
fault. -/
def Pass (c : Node) (body : List Node) (s s' : State) : Prop :=
  ∃ v w s₁, Evaluates (.node c) s (.ok v) s₁ ∧ v.toInt ≠ 0 ∧
    Evaluates (.sequence body) s₁ (.ok w) s'

/-- Behind `k` passes the condition does not hold, and `s'` is the state behind that check. -/
structure Trail (c : Node) (body : List Node) (trail : Nat → State) (k : Nat) (s' : State) :
    Prop where
  pass : ∀ j < k, Pass c body (trail j) (trail (j + 1))
  last : ∃ v, Evaluates (.node c) (trail k) (.ok v) s' ∧ v.toInt = 0

/-- The passes behind the first one. -/
theorem Trail.tail {trail : Nat → State} {k : Nat} {s' : State}
    (h : Trail c body trail (k + 1) s') : Trail c body (fun j => trail (j + 1)) k s' :=
  ⟨fun j hj => h.pass (j + 1) (Nat.succ_lt_succ hj), h.last⟩

/-- A loop ends behind its last pass. -/
theorem Evaluates.loop_of_trail {trail : Nat → State} {k : Nat} {s' : State}
    (h : Trail c body trail k s') : Evaluates (.node (.loop c body)) (trail 0) (.ok .unit) s' := by
  induction k generalizing trail with
  | zero =>
      obtain ⟨v, hc, hv⟩ := h.last
      exact .loopEnd hc hv
  | succ k ih =>
      obtain ⟨v, w, s₁, hc, hv, hb⟩ := h.pass 0 (Nat.succ_pos k)
      exact .loopPass hc hv hb (ih h.tail)

/-- Passes that can be made one after another leave a trail. -/
theorem exists_trail {P : Nat → State → Prop} {R : Nat → State → State → Prop} {s : State}
    (hs : P 0 s) (k : Nat) (hR : ∀ j < k, ∀ s, P j s → ∃ s', R j s s' ∧ P (j + 1) s') :
    ∃ trail : Nat → State, trail 0 = s ∧ (∀ j ≤ k, P j (trail j)) ∧
      ∀ j < k, R j (trail j) (trail (j + 1)) := by
  induction k with
  | zero => exact ⟨fun _ => s, rfl, fun j hj => Nat.le_zero.mp hj ▸ hs, fun _ hj => nomatch hj⟩
  | succ k ih =>
      obtain ⟨trail, hzero, hP, hRs⟩ := ih fun j hj => hR j (Nat.lt_succ_of_lt hj)
      obtain ⟨s', hlast, hP'⟩ := hR k (Nat.lt_succ_self k) _ (hP k (Nat.le_refl k))
      refine ⟨fun j => if j ≤ k then trail j else s', by simpa using hzero, ?_, ?_⟩
      · intro j hj
        rcases Nat.le_succ_iff.mp hj with hjk | rfl
        · simpa only [if_pos hjk] using hP j hjk
        · simpa only [if_neg (Nat.not_succ_le_self k)] using hP'
      · intro j hj
        rcases Nat.lt_succ_iff_lt_or_eq.mp hj with hjk | rfl
        · simpa only [if_pos (Nat.le_of_lt hjk), if_pos (Nat.succ_le_of_lt hjk)] using hRs j hjk
        · simpa only [if_pos (Nat.le_refl j), if_neg (Nat.not_succ_le_self j)] using hlast

/-! ### Passes are counted -/

/-- More steps do not change an outcome. -/
theorem Machine.run_mono {fuel fuel' : Nat} {m : Machine} {o : Outcome}
    (h : m.run fuel = some o) (hle : fuel ≤ fuel') : m.run fuel' = some o := by
  induction fuel generalizing fuel' m with
  | zero => cases h
  | succ fuel ih =>
      obtain ⟨fuel', rfl⟩ : ∃ k, fuel' = k + 1 := ⟨fuel' - 1, by omega⟩
      rw [run] at h ⊢
      split at h
      · exact ih h (by omega)
      · exact h

/-- The construct, carried through with the machine for an evaluator, ends with `r` in `s'`, given
steps and calls enough. -/
def Request.Driven (q : Request) (s : State) (r : Except Fault UInt64) (s' : State) : Prop :=
  ∃ enough, ∀ fuel ≥ enough, ∀ calls ≥ enough, q.drive (evaluate fuel) calls s = some (r, s')

namespace Request.Driven

variable {s s₁ s' : State} {r : Except Fault UInt64}

theorem finished {k : UInt64} : (Request.finished k).Driven s (.ok k) s :=
  ⟨0, fun _ _ calls _ => by cases calls <;> rfl⟩

/-- The node that the construct asks for has a value, and it goes on with that. -/
theorem ask {n : Node} {next : Control} {v : Value} (hn : Evaluates (.node n) s (.ok v) s₁)
    (h : (next.resume v).Driven s₁ r s') : (Request.ask n next).Driven s r s' := by
  obtain ⟨steps, hsteps⟩ := hn.exists_evaluate
  obtain ⟨enough, henough⟩ := h
  refine ⟨max steps (enough + 1), fun fuel hfuel calls hcalls => ?_⟩
  obtain ⟨calls, rfl⟩ : ∃ k, calls = k + 1 := ⟨calls - 1, by omega⟩
  have hvalue : evaluate fuel n s = some (.ok v, s₁) := Machine.run_mono hsteps (by omega)
  rw [drive, hvalue]
  exact henough fuel (by omega) calls (by omega)

theorem sequence {q : List Node → Request} (hq : Ordered q) {ss : List Node} {w : Value}
    (hs : Evaluates (.sequence ss) s (.ok w) s₁) (h : (q []).Driven s₁ r s') :
    (q ss).Driven s r s' := by
  induction ss generalizing s with
  | nil => cases hs; exact h
  | cons n ss ih =>
      cases hs with
      | cons hn hs =>
          obtain ⟨next, hask, hresume⟩ := hq n ss
          rw [hask]
          exact ask hn (hresume _ ▸ ih hs)

/-- A pass brings the loop back to its condition, with one pass more. -/
theorem pass (hp : Pass c body s s₁) {k : UInt64}
    (h : (Request.ask c (.test c body (k + 1))).Driven s₁ r s') :
    (Request.ask c (.test c body k)).Driven s r s' := by
  obtain ⟨v, w, s₂, hc, hv, hb⟩ := hp
  refine ask hc ?_
  rw [Control.resume, if_pos (Value.holds_iff.mpr hv)]
  exact sequence (ordered_pass c body k) hb h

end Request.Driven

theorem counter_succ (start : UInt64) (k : Nat) :
    start + .ofNat (k + 1) = start + 1 + .ofNat k := by
  rw [UInt64.ofNat_add, UInt64.add_comm (.ofNat k), ← UInt64.add_assoc]
  rfl

/-- The counter goes on from wherever it stands. -/
theorem driven_test {trail : Nat → State} {k : Nat} {s' : State} (start : UInt64)
    (h : Trail c body trail k s') :
    (Request.ask c (.test c body start)).Driven (trail 0) (.ok (start + .ofNat k)) s' := by
  induction k generalizing trail start with
  | zero =>
      obtain ⟨v, hc, hv⟩ := h.last
      refine .ask hc ?_
      rw [Control.resume, if_neg (Value.not_holds_iff.mpr hv)]
      have hzero : start + .ofNat 0 = start := UInt64.add_zero start
      rw [hzero]
      exact .finished
  | succ k ih =>
      rw [counter_succ]
      exact .pass (h.pass 0 (Nat.succ_pos k)) (ih _ h.tail)

/-- **A loop reports how many passes it has made**, up to the width of the counter. -/
theorem driven_of_trail {trail : Nat → State} {k : Nat} {s' : State} (h : Trail c body trail k s') :
    (Request.loop c body).Driven (trail 0) (.ok (.ofNat k)) s' := by
  have hloop := driven_test 0 h
  rwa [UInt64.zero_add] at hloop

end Treewalk
