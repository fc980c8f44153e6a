import Treewalk.Proofs.Evaluation.Loops

/-!
# Evaluation — The calls that a loop makes

A construct is carried through with any evaluator, which may have a state of its own and answer each
call as it likes.  What it is called on, and in what order, is told by `Request.Calls`, and the
evaluator can keep a record of it (`Evaluator.recorded`).

A loop calls on its condition and, as long as that holds, on each statement of its body
(`LoopCalls`).

* `Request.Calls.observed`: who watches the calls sees these, and does not change the run.
* `Request.Calls.loop`: a loop makes no other calls.
* `loop_calls_in_order`: the calls of a loop, one by one, if it ends after its last pass and if it
  ends with a fault.
-/

namespace Treewalk

/-! ### Calls -/

/-- A node that an evaluator is called on, and what it answers. -/
structure Call where
  node : Node
  answer : Except Fault Value

/-- The evaluator that shows each of its calls to somebody who watches. -/
def Evaluator.observed {σ α : Type} (evaluate : Evaluator σ) (see : α → Call → α) :
    Evaluator (α × σ) :=
  fun n (a, s) => (evaluate n s).map fun (r, s) => (r, (see a ⟨n, r⟩, s))

/-- The evaluator that keeps a record of its calls, in order. -/
def Evaluator.recorded {σ : Type} (evaluate : Evaluator σ) : Evaluator (List Call × σ) :=
  evaluate.observed fun calls call => calls ++ [call]

variable {σ : Type} {evaluate : Evaluator σ} {s s' : σ} {r : Except Fault UInt64}
  {calls : List Call}

/-- The construct, carried through from `s`, makes these calls one after another, each in the state
that the last one left, and ends with `r` in `s'`. -/
inductive Request.Calls (evaluate : Evaluator σ) :
    Request → σ → List Call → Except Fault UInt64 → σ → Prop where
  | finished {k : UInt64} {s : σ} : Calls evaluate (.finished k) s [] (.ok k) s
  | fault {n : Node} {next : Control} {f : Fault} {s s' : σ} :
      evaluate n s = some (.error f, s') →
      Calls evaluate (.ask n next) s [⟨n, .error f⟩] (.error f) s'
  | value {n : Node} {next : Control} {v : Value} {s s₁ s' : σ} {calls : List Call}
      {r : Except Fault UInt64} :
      evaluate n s = some (.ok v, s₁) → Calls evaluate (next.resume v) s₁ calls r s' →
      Calls evaluate (.ask n next) s (⟨n, .ok v⟩ :: calls) r s'

namespace Request

/-- What a construct ends with, it ends with after some calls. -/
theorem exists_calls {q : Request} {fuel : Nat} (h : q.drive evaluate fuel s = some (r, s')) :
    ∃ calls, q.Calls evaluate s calls r s' ∧ calls.length ≤ fuel := by
  induction fuel generalizing q s with
  | zero =>
      cases q with
      | finished k => cases h; exact ⟨[], .finished, Nat.le_refl 0⟩
      | ask n next => cases h
  | succ fuel ih =>
      cases q with
      | finished k => cases h; exact ⟨[], .finished, Nat.zero_le _⟩
      | ask n next =>
          rw [drive] at h
          split at h
          · cases h
          · next hn => cases h; exact ⟨_, .fault hn, by simp⟩
          · next hn =>
              obtain ⟨calls, hcalls, hle⟩ := ih h
              exact ⟨_, .value hn hcalls, Nat.succ_le_succ hle⟩

/-- Whoever watches the evaluator sees the calls in order, and the construct ends as it does without
being watched. -/
theorem Calls.observed {α : Type} (see : α → Call → α) {q : Request}
    (h : q.Calls evaluate s calls r s') {fuel : Nat} (hle : calls.length ≤ fuel) (a : α) :
    q.drive (evaluate.observed see) fuel (a, s) = some (r, (calls.foldl see a, s')) := by
  induction h generalizing fuel a with
  | finished => cases fuel <;> rfl
  | fault hn =>
      obtain ⟨fuel, rfl⟩ : ∃ k, fuel = k + 1 := ⟨fuel - 1, by simp at hle; omega⟩
      simp [drive, Evaluator.observed, hn]
  | value hn _ ih =>
      obtain ⟨fuel, rfl⟩ : ∃ k, fuel = k + 1 := ⟨fuel - 1, by simp at hle; omega⟩
      simp only [drive, Evaluator.observed, hn, Option.map_some, List.foldl_cons]
      exact ih (Nat.le_of_succ_le_succ hle) _

end Request

/-! ### Statements in order -/

/-- The calls are on these statements in order, and all have a value for an answer. -/
structure Answered (ss : List Node) (calls : List Call) : Prop where
  nodes : calls.map (·.node) = ss
  values : ∀ call ∈ calls, ∃ v, call.answer = .ok v

theorem Answered.length_eq {ss : List Node} (h : Answered ss calls) :
    calls.length = ss.length := by
  rw [← h.nodes, List.length_map]

theorem Answered.cons {ss : List Node} (h : Answered ss calls) (n : Node) (v : Value) :
    Answered (n :: ss) (⟨n, .ok v⟩ :: calls) :=
  ⟨congrArg (n :: ·) h.nodes, List.forall_mem_cons.mpr ⟨⟨v, rfl⟩, h.values⟩⟩

/-- Statements are called on in order: up to one that faults, or all of them. -/
theorem Request.Calls.sequence {q : List Node → Request} (hq : Ordered q) {ss : List Node}
    (h : (q ss).Calls evaluate s calls r s') :
    (∃ before n rest done f, ss = before ++ n :: rest ∧ Answered before done ∧
      calls = done ++ [⟨n, .error f⟩] ∧ r = .error f) ∨
    ∃ done more s₁, Answered ss done ∧ calls = done ++ more ∧
      (q []).Calls evaluate s₁ more r s' := by
  induction ss generalizing s calls with
  | nil => exact .inr ⟨[], calls, s, ⟨rfl, List.forall_mem_nil _⟩, rfl, h⟩
  | cons n ss ih =>
      obtain ⟨next, hask, hresume⟩ := hq n ss
      rw [hask] at h
      cases h with
      | fault => exact .inl ⟨[], n, ss, [], _, rfl, ⟨rfl, List.forall_mem_nil _⟩, rfl, rfl⟩
      | value _ hmore =>
          rw [hresume] at hmore
          rcases ih hmore with ⟨before, m, rest, done, f, rfl, hdone, rfl, rfl⟩ |
              ⟨done, more, s₁, hdone, rfl, hlast⟩
          · exact .inl ⟨n :: before, m, rest, _, f, rfl, hdone.cons n _, rfl, rfl⟩
          · exact .inr ⟨_, more, s₁, hdone.cons n _, rfl, hlast⟩

/-! ### Loops -/

/-- `LoopCalls c body k j calls r`: a loop whose counter stands at `k` makes these calls, `j` passes
among them, and ends with `r`. -/
inductive LoopCalls (c : Node) (body : List Node) :
    UInt64 → Nat → List Call → Except Fault UInt64 → Prop where
  /-- The condition does not hold. -/
  | last {k : UInt64} {v : Value} : v.holds = false → LoopCalls c body k 0 [⟨c, .ok v⟩] (.ok k)
  /-- The condition faults. -/
  | checkFault {k : UInt64} {f : Fault} : LoopCalls c body k 0 [⟨c, .error f⟩] (.error f)
  /-- A statement of the body faults. -/
  | passFault {k : UInt64} {v : Value} {before rest : List Node} {n : Node} {f : Fault}
      {calls : List Call} : v.holds = true → body = before ++ n :: rest → Answered before calls →
      LoopCalls c body k 0 (⟨c, .ok v⟩ :: (calls ++ [⟨n, .error f⟩])) (.error f)
  /-- A pass, and the loop again. -/
  | pass {k : UInt64} {v : Value} {j : Nat} {calls more : List Call} {r : Except Fault UInt64} :
      v.holds = true → Answered body calls → LoopCalls c body (k + 1) j more r →
      LoopCalls c body k (j + 1) (⟨c, .ok v⟩ :: (calls ++ more)) r

variable {c : Node} {body : List Node} {k : UInt64} {j : Nat}

/-- A loop makes no other calls. -/
theorem Request.Calls.loop (h : (Request.ask c (.test c body k)).Calls evaluate s calls r s') :
    ∃ j, LoopCalls c body k j calls r := by
  -- Each pass takes a call at least, so what is left to tell has fewer of them.
  generalize hlen : calls.length = len
  induction len using Nat.strongRecOn generalizing k s calls with
  | ind len ih =>
      cases h with
      | fault => exact ⟨0, .checkFault⟩
      | @value _ _ v _ _ _ rest _ hv hrest =>
          rw [Control.resume] at hrest
          cases hholds : v.holds with
          | false =>
              rw [hholds] at hrest
              cases hrest
              exact ⟨0, .last hholds⟩
          | true =>
              rw [hholds] at hrest
              rcases hrest.sequence (ordered_pass c body k) with
                ⟨before, n, after, done, f, hbody, hdone, rfl, rfl⟩ |
                ⟨done, more, s₁, hdone, rfl, hmore⟩
              · exact ⟨0, .passFault hholds hbody hdone⟩
              · obtain ⟨j, hj⟩ := ih more.length (by simp at hlen; omega) hmore rfl
                exact ⟨j + 1, .pass hholds hdone hj⟩

/-- The condition and the body, one after the other, `j` times. -/
def laps (c : Node) (body : List Node) (j : Nat) : List Node :=
  (List.replicate j (c :: body)).flatten

theorem laps_succ (c : Node) (body : List Node) (j : Nat) :
    laps c body (j + 1) = c :: (body ++ laps c body j) := by
  simp [laps, List.replicate_succ]

theorem length_laps (c : Node) (body : List Node) (j : Nat) :
    (laps c body j).length = j * (body.length + 1) := by
  simp [laps]

namespace LoopCalls

/-- A loop that ends without a fault reports its passes. -/
theorem counter_eq {m : UInt64} (h : LoopCalls c body k j calls (.ok m)) : m = k + .ofNat j := by
  generalize hr : Except.ok m = r at h
  induction h with
  | last => cases hr; exact (UInt64.add_zero _).symm
  | checkFault => cases hr
  | passFault => cases hr
  | pass _ _ _ ih => rw [ih hr, counter_succ]

/-- Without a fault the calls go round `j` times and end behind the condition. -/
theorem nodes_eq {m : UInt64} (h : LoopCalls c body k j calls (.ok m)) :
    calls.map (·.node) = laps c body j ++ [c] := by
  generalize hr : Except.ok m = r at h
  induction h with
  | last => rfl
  | checkFault => cases hr
  | passFault => cases hr
  | pass _ hdone _ ih => simp [laps_succ, hdone.nodes, ih hr]

/-- In any case the calls go round, up to some place. -/
theorem nodes_isPrefix (h : LoopCalls c body k j calls r) :
    calls.map (·.node) <+: laps c body (j + 1) := by
  induction h with
  | last | checkFault => exact ⟨body ++ laps c body 0, (laps_succ c body 0).symm⟩
  | @passFault _ _ before rest n _ done _ hbody hdone =>
      refine ⟨rest ++ laps c body 0, ?_⟩
      simp [laps_succ, hdone.nodes, hbody]
  | @pass _ _ j done more _ _ hdone _ ih =>
      obtain ⟨tail, htail⟩ := ih
      refine ⟨tail, ?_⟩
      rw [laps_succ, ← htail]
      simp [hdone.nodes]

/-- Every check with a call behind it holds. -/
theorem exists_holds (h : LoopCalls c body k j calls r) (i : Nat)
    (hi : i * (body.length + 1) + 1 < calls.length) :
    ∃ v, calls[i * (body.length + 1)]? = some ⟨c, .ok v⟩ ∧ v.holds = true := by
  induction h generalizing i with
  | last | checkFault => simp at hi
  | @passFault _ v before rest n _ done hv hbody hdone =>
      cases i with
      | zero => exact ⟨v, by simp, hv⟩
      | succ i =>
          -- A pass that breaks off is no longer than a whole one.
          have hlength := hdone.length_eq
          simp only [hbody, List.length_cons, List.length_append, List.length_nil,
            Nat.succ_mul] at hi
          omega
  | @pass _ v j done more _ hv hdone _ ih =>
      cases i with
      | zero => exact ⟨v, by simp, hv⟩
      | succ i =>
          have hlength := hdone.length_eq
          simp only [List.length_cons, List.length_append, Nat.succ_mul] at hi
          obtain ⟨w, hw, hholds⟩ := ih i (by omega)
          refine ⟨w, ?_, hholds⟩
          rw [← hw, Nat.succ_mul, Nat.add_comm, Nat.add_right_comm, List.getElem?_cons_succ,
            ← hlength, List.getElem?_append_right (Nat.le_add_right _ _), Nat.add_sub_cancel_left]

/-- Without a fault the last call is a check that does not hold. -/
theorem exists_last {m : UInt64} (h : LoopCalls c body k j calls (.ok m)) :
    ∃ v, calls.getLast? = some ⟨c, .ok v⟩ ∧ v.holds = false := by
  generalize hr : Except.ok m = r at h
  induction h with
  | @last _ v hv => exact ⟨v, rfl, hv⟩
  | checkFault => cases hr
  | passFault => cases hr
  | pass _ _ _ ih =>
      obtain ⟨v, hlast, hv⟩ := ih hr
      exact ⟨v, by simp [List.getLast?_cons, List.getLast?_append, hlast], hv⟩

/-- With a fault the last call is the one that faults, and no other does. -/
theorem exists_fault {f : Fault} (h : LoopCalls c body k j calls (.error f)) :
    ∃ before n, calls = before ++ [⟨n, .error f⟩] ∧ ∀ call ∈ before, ∃ v, call.answer = .ok v := by
  generalize hr : Except.error f = r at h
  induction h with
  | last => cases hr
  | checkFault => cases hr; exact ⟨[], c, rfl, List.forall_mem_nil _⟩
  | @passFault _ v _ _ n _ done _ _ hdone =>
      cases hr
      exact ⟨⟨c, .ok v⟩ :: done, n, rfl, (hdone.cons c v).values⟩
  | @pass _ v _ done _ _ _ hdone _ ih =>
      obtain ⟨before, n, rfl, hvalues⟩ := ih hr
      refine ⟨⟨c, .ok v⟩ :: (done ++ before), n, by simp, ?_⟩
      rw [← List.cons_append, List.forall_mem_append]
      exact ⟨(hdone.cons c v).values, hvalues⟩

end LoopCalls

/-- **The calls of a loop.**  Carry a loop through with any evaluator, and let that keep a record of
its calls; this changes neither the result nor the state.  If the loop ends without a fault, then
the calls are on the condition and on each statement of the body in order, `j` times, and on the
condition once more, where `j` is the reported number of passes unless the counter has wrapped
around; the condition holds at the first `j` checks and does not at the last.  If it ends with a
fault, then the calls go round in the same way up to the one that faults, which is the last; all
before it have values, and every check among them holds. -/
theorem loop_calls_in_order {σ : Type} {evaluate : Evaluator σ} {c : Node} {body : List Node}
    {fuel : Nat} {s s' : σ} {r : Except Fault UInt64}
    (h : (Request.loop c body).drive evaluate fuel s = some (r, s')) :
    ∃ calls : List Call,
      (Request.loop c body).drive evaluate.recorded fuel ([], s) = some (r, (calls, s')) ∧
      (Request.loop c body).drive evaluate.counted fuel (0, s) = some (r, (calls.length, s')) ∧
      (∀ k, r = .ok k → ∃ j : Nat,
        k = .ofNat j ∧ (j < UInt64.size → k.toNat = j) ∧
        calls.map (·.node) = (List.replicate j (c :: body)).flatten ++ [c] ∧
        calls.length = (j + 1) + j * body.length ∧
        (∀ i < j, ∃ v, calls[i * (body.length + 1)]? = some ⟨c, .ok v⟩ ∧ v.holds = true) ∧
        ∃ v, calls.getLast? = some ⟨c, .ok v⟩ ∧ v.holds = false) ∧
      ∀ f, r = .error f →
        (∃ j, calls.map (·.node) <+: (List.replicate j (c :: body)).flatten) ∧
        ∃ before n, calls = before ++ [⟨n, .error f⟩] ∧
          (∀ call ∈ before, ∃ v, call.answer = .ok v) ∧
          ∀ i, i * (body.length + 1) < before.length →
            ∃ v, calls[i * (body.length + 1)]? = some ⟨c, .ok v⟩ ∧ v.holds = true := by
  obtain ⟨calls, hcalls, hle⟩ := Request.exists_calls h
  obtain ⟨j, hloop⟩ := Request.Calls.loop hcalls
  refine ⟨calls, ?_, ?_, ?_, ?_⟩
  · have hseen : calls.foldl (fun calls call => calls ++ [call]) [] = calls := by
      simp [← List.flatMap_def]
    exact (hcalls.observed _ hle []).trans (by rw [hseen])
  · have hseen : calls.foldl (fun k _ => k + 1) 0 = calls.length := by simp
    exact (hcalls.observed _ hle 0).trans (by rw [hseen])
  · rintro k rfl
    have hnodes := hloop.nodes_eq
    have hlength : calls.length = j * (body.length + 1) + 1 := by
      simpa [length_laps] using congrArg List.length hnodes
    obtain rfl : k = .ofNat j := by rw [hloop.counter_eq, UInt64.zero_add]
    refine ⟨j, rfl, fun hj => ?_, hnodes, ?_, fun i hi => hloop.exists_holds i ?_,
      hloop.exists_last⟩
    · exact UInt64.toNat_ofNat_of_lt' hj
    · rw [hlength, Nat.mul_succ]
      omega
    · rw [hlength]
      exact Nat.succ_lt_succ (Nat.mul_lt_mul_of_pos_right hi (Nat.succ_pos _))
  · rintro f rfl
    obtain ⟨before, n, hbefore, hvalues⟩ := hloop.exists_fault
    refine ⟨⟨j + 1, hloop.nodes_isPrefix⟩, before, n, hbefore, hvalues, fun i hi => ?_⟩
    refine hloop.exists_holds i ?_
    rw [hbefore, List.length_append, List.length_singleton]
    omega

/-- The evaluator that has its answers ready, whatever it is called on. -/
def Evaluator.prepared : Evaluator (List (Except Fault Value)) :=
  fun _ answers => answers.head?.map fun a => (a, answers.tail)

/-- A loop over two statements makes one pass and ends at a text, after four calls; with other
answers it faults at the second statement of its second pass, and the last answer is left. -/
theorem one_pass_or_fault_in_second :
    let body : List Node := [.print (.var "x"), .input "x"]
    let answers : List (Except Fault Value) := [.ok (.int 1), .ok .unit, .ok (.int 5)]
    let broken : List (Except Fault Value) :=
      [.ok (.int (-1)), .ok .unit, .error .moduloByZero, .ok .unit]
    (∃ calls : List Call,
      (Request.loop (.var "x") body).drive Evaluator.prepared.recorded 9
          ([], answers ++ [.ok (.text "1")]) = some (.ok 1, (calls, [])) ∧
        calls.map (·.node) = [.var "x", .print (.var "x"), .input "x", .var "x"]) ∧
    ∃ (calls before : List Call) (n : Node),
      (Request.loop (.var "x") body).drive Evaluator.prepared.recorded 9 ([], answers ++ broken) =
          some (.error .moduloByZero, (calls, [.ok .unit])) ∧
        calls = before ++ [⟨n, .error .moduloByZero⟩] ∧ before.length = 5 := by
  intro body answers broken
  have hends : (Request.loop (.var "x") body).drive Evaluator.prepared 9
      (answers ++ [.ok (.text "1")]) = some (.ok 1, []) := rfl
  have hfaults : (Request.loop (.var "x") body).drive Evaluator.prepared 9 (answers ++ broken) =
      some (.error .moduloByZero, [.ok .unit]) := rfl
  obtain ⟨calls, hrecorded, hcounted, hok, -⟩ := loop_calls_in_order hends
  obtain ⟨calls', hrecorded', hcounted', -, herror⟩ := loop_calls_in_order hfaults
  refine ⟨⟨calls, hrecorded, ?_⟩, calls', ?_⟩
  · have hfour : 4 = calls.length := congrArg (fun o => o.elim 0 (·.2.1)) hcounted
    obtain ⟨j, -, -, hnodes, hlength, -⟩ := hok 1 rfl
    obtain rfl : j = 1 := by
      simp only [body, List.length_cons, List.length_nil] at hlength
      omega
    exact hnodes
  · obtain ⟨-, before, n, hlast, -⟩ := herror _ rfl
    refine ⟨before, n, hrecorded', hlast, ?_⟩
    have hsix : 6 = calls'.length := congrArg (fun o => o.elim 0 (·.2.1)) hcounted'
    rw [hlast, List.length_append, List.length_singleton] at hsix
    omega

end Treewalk
