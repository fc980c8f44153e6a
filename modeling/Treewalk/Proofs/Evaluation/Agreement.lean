import Treewalk.Proofs.Evaluation.Leaves

/-!
# Evaluation — The machine keeps the rules

The machine ends with an outcome exactly when the rules derive it (`evaluate_iff_evaluates`).

From the machine to the rules, a machine under way is read as what is left to derive: each frame
takes a value to a result (`Frame.Takes`), and the frames do so one after another
(`Machine.Ends`).  A step only ever moves towards what was left, so what a machine ends with is
derivable from where it stands (`Machine.ends_of_run`).

From the rules to the machine, a derivation is followed under arbitrary frames (`Evaluates.runs`).
A loop that goes on is met by the machine at its condition, with some number of passes behind it;
`Task.Runs` therefore speaks of every such number.

The machine has one outcome whatever number of steps it is given, so the rules derive one result
and one state (`Evaluates.unique`).
-/

namespace Treewalk

/-! ### What is left to derive -/

/-- `c.Takes v s r s'`: the construct that waits for `v` goes on in state `s`, and ends with
result `r` in state `s'`. -/
inductive Control.Takes : Control → Value → State → Except Fault Value → State → Prop where
  | sequence {rest : List Node} {v : Value} {s s' : State} {r : Except Fault Value} :
      Evaluates (.sequence rest) s r s' → Takes (.sequence rest) v s r s'
  | branchYes {yes no : List Node} {v : Value} {s s' : State} {r : Except Fault Value} :
      v.toInt ≠ 0 → Evaluates (.sequence yes) s r s' → Takes (.branch yes no) v s r s'
  | branchNo {yes no : List Node} {v : Value} {s s' : State} {r : Except Fault Value} :
      v.toInt = 0 → Evaluates (.sequence no) s r s' → Takes (.branch yes no) v s r s'
  | testEnd {c : Node} {body : List Node} {k : UInt64} {v : Value} {s : State} :
      v.toInt = 0 → Takes (.test c body k) v s (.ok .unit) s
  | testPass {c : Node} {body : List Node} {k : UInt64} {v w : Value} {s s₁ s' : State}
      {r : Except Fault Value} : v.toInt ≠ 0 → Evaluates (.sequence body) s (.ok w) s₁ →
      Evaluates (.node (.loop c body)) s₁ r s' → Takes (.test c body k) v s r s'
  | testFault {c : Node} {body : List Node} {k : UInt64} {v : Value} {s s' : State}
      {f : Fault} : v.toInt ≠ 0 → Evaluates (.sequence body) s (.error f) s' →
      Takes (.test c body k) v s (.error f) s'
  | pass {c : Node} {body rest : List Node} {k : UInt64} {v w : Value} {s s₁ s' : State}
      {r : Except Fault Value} : Evaluates (.sequence rest) s (.ok w) s₁ →
      Evaluates (.node (.loop c body)) s₁ r s' → Takes (.pass c body rest k) v s r s'
  | passFault {c : Node} {body rest : List Node} {k : UInt64} {v : Value} {s s' : State}
      {f : Fault} : Evaluates (.sequence rest) s (.error f) s' →
      Takes (.pass c body rest k) v s (.error f) s'

/-- `q.Ends s r s'`: the construct that does `q` next, in state `s`, ends with `r` in `s'`. -/
inductive Request.Ends : Request → State → Except Fault Value → State → Prop where
  | finished {k : UInt64} {s : State} : Ends (.finished k) s (.ok .unit) s
  | ask {n : Node} {c : Control} {v : Value} {s s₁ s' : State} {r : Except Fault Value} :
      Evaluates (.node n) s (.ok v) s₁ → c.Takes v s₁ r s' → Ends (.ask n c) s r s'
  | fault {n : Node} {c : Control} {s s' : State} {f : Fault} :
      Evaluates (.node n) s (.error f) s' → Ends (.ask n c) s (.error f) s'

/-- `f.Takes v s r s'`: the frame that waits for `v` makes of it result `r` and state `s'`. -/
inductive Frame.Takes : Frame → Value → State → Except Fault Value → State → Prop where
  | store {x : String} {v : Value} {s : State} : Takes (.store x) v s (.ok v) (s.assign x v)
  | print {v : Value} {s : State} :
      Takes .print v s (.ok .unit) { s with console := s.console.printLine v.display }
  | left {op : Operator} {n : Node} {a b : Value} {s s' : State} {c : Except Fault Int64} :
      Evaluates (.node n) s (.ok b) s' → op.Yields a.toInt b.toInt c →
      Takes (.left op n) a s (c.map .int) s'
  | leftFault {op : Operator} {n : Node} {a : Value} {s s' : State} {f : Fault} :
      Evaluates (.node n) s (.error f) s' → Takes (.left op n) a s (.error f) s'
  | right {op : Operator} {a : Int64} {b : Value} {s : State} {c : Except Fault Int64} :
      op.Yields a b.toInt c → Takes (.right op a) b s (c.map .int) s
  | control {c : Control} {v : Value} {s s' : State} {r : Except Fault Value} :
      c.Takes v s r s' → Takes (.control c) v s r s'

namespace Machine

/-- The frames, innermost first, make `o` of result `r` in state `s`. -/
inductive Closes : List Frame → Except Fault Value → State → Outcome → Prop where
  | done {r : Except Fault Value} {s : State} : Closes [] r s (r, s)
  | fault {fs : List Frame} {f : Fault} {s : State} : Closes fs (.error f) s (.error f, s)
  | frame {f : Frame} {fs : List Frame} {v : Value} {s s' : State} {r : Except Fault Value}
      {o : Outcome} : f.Takes v s r s' → Closes fs r s' o → Closes (f :: fs) (.ok v) s o

/-- What is left to derive for a machine to end with `o`. -/
inductive Ends : Machine → Outcome → Prop where
  | node {n : Node} {fs : List Frame} {s s' : State} {r : Except Fault Value} {o : Outcome} :
      Evaluates (.node n) s r s' → Closes fs r s' o → Ends ⟨.node n, fs, s⟩ o
  | value {v : Value} {fs : List Frame} {s : State} {o : Outcome} :
      Closes fs (.ok v) s o → Ends ⟨.value v, fs, s⟩ o

end Machine

/-! ### Constructs -/

theorem Request.Ends.sequence {ss : List Node} {s s' : State} {r : Except Fault Value}
    (h : (Request.sequence ss).Ends s r s') : Evaluates (.sequence ss) s r s' := by
  cases ss with
  | nil => cases h; exact .nil
  | cons n ss =>
      cases h with
      | ask hn ht => cases ht with | sequence hs => exact .cons hn hs
      | fault hn => exact .stop hn

theorem Request.Ends.test {c : Node} {body : List Node} {k : UInt64} {s s' : State}
    {r : Except Fault Value} (h : (Request.ask c (.test c body k)).Ends s r s') :
    Evaluates (.node (.loop c body)) s r s' := by
  cases h with
  | ask hc ht =>
      cases ht with
      | testEnd hz => exact .loopEnd hc hz
      | testPass hz hb hl => exact .loopPass hc hz hb hl
      | testFault hz hb => exact .passFault hc hz hb
  | fault hc => exact .loopFault hc

theorem Request.Ends.pass {c : Node} {body : List Node} {k : UInt64} {rest : List Node}
    {s s' : State} {r : Except Fault Value} (h : (Request.pass c body k rest).Ends s r s') :
    (∃ w s₁, Evaluates (.sequence rest) s (.ok w) s₁ ∧
        Evaluates (.node (.loop c body)) s₁ r s') ∨
      ∃ f, Evaluates (.sequence rest) s (.error f) s' ∧ r = .error f := by
  cases rest with
  | nil => exact .inl ⟨.unit, s, .nil, h.test⟩
  | cons n rest =>
      cases h with
      | ask hn ht =>
          cases ht with
          | pass hs hl => exact .inl ⟨_, _, .cons hn hs, hl⟩
          | passFault hs => exact .inr ⟨_, .cons hn hs, rfl⟩
      | fault hn => exact .inr ⟨_, .stop hn, rfl⟩

theorem Value.holds_iff {v : Value} : v.holds = true ↔ v.toInt ≠ 0 := bne_iff_ne

theorem Value.not_holds_iff {v : Value} : ¬ v.holds = true ↔ v.toInt = 0 := by
  rw [Value.holds_iff, Decidable.not_not]

/-- What a construct does next is left to derive, so the construct takes the value there. -/
theorem Control.takes_of_resume {c : Control} {v : Value} {s s' : State}
    {r : Except Fault Value} (h : (c.resume v).Ends s r s') : c.Takes v s r s' := by
  cases c with
  | sequence rest => exact .sequence (Request.Ends.sequence h)
  | branch yes no =>
      have hs := Request.Ends.sequence h
      split at hs
      · next hv => exact .branchYes (Value.holds_iff.mp hv) hs
      · next hv => exact .branchNo (Value.not_holds_iff.mp hv) hs
  | test c body k =>
      rw [Control.resume] at h
      split at h
      · next hv =>
        have hz := Value.holds_iff.mp hv
        rcases Request.Ends.pass h with ⟨w, s₁, hb, hl⟩ | ⟨f, hb, rfl⟩
        · exact .testPass hz hb hl
        · exact .testFault hz hb
      · next hv =>
        cases h
        exact .testEnd (Value.not_holds_iff.mp hv)
  | pass c body rest k =>
      rcases Request.Ends.pass h with ⟨w, s₁, hb, hl⟩ | ⟨f, hb, rfl⟩
      · exact .pass hb hl
      · exact .passFault hb

/-! ### From the machine to the rules -/

namespace Machine

theorem Ends.serve {q : Request} {fs : List Frame} {s : State} {o : Outcome}
    (h : (serve q fs s).Ends o) : ∃ r s', q.Ends s r s' ∧ Closes fs r s' o := by
  cases q with
  | finished k => cases h with | value hc => exact ⟨_, s, .finished, hc⟩
  | ask n c =>
      cases h with
      | node hn hc =>
          cases hc with
          | fault => exact ⟨_, _, .fault hn, .fault⟩
          | frame ht hc => cases ht with | control ht => exact ⟨_, _, .ask hn ht, hc⟩

/-- The step at a node moves towards what was left to derive. -/
theorem ends_of_enter {n : Node} {fs : List Frame} {s : State} {o : Outcome}
    (h : (enter n fs s).Ends o) : Ends ⟨.node n, fs, s⟩ o := by
  cases n with
  | number n => cases h with | value hc => exact .node .number hc
  | text x => cases h with | value hc => exact .node .text hc
  | var x => cases h with | value hc => exact .node .var hc
  | input x => cases h with | value hc => exact .node (.input (State.asks_ask s x)) hc
  | assign x e =>
      cases h with
      | node he hc =>
          cases hc with
          | fault => exact .node (.assignFault he) .fault
          | frame ht hc => cases ht with | store => exact .node (.assign he) hc
  | print e =>
      cases h with
      | node he hc =>
          cases hc with
          | fault => exact .node (.printFault he) .fault
          | frame ht hc => cases ht with | print => exact .node (.print he) hc
  | binary op l r =>
      cases h with
      | node hl hc =>
          cases hc with
          | fault => exact .node (.leftFault hl) .fault
          | frame ht hc =>
              cases ht with
              | left hr hy => exact .node (.binary hl hr hy) hc
              | leftFault hr => exact .node (.rightFault hl hr) hc
  | block ss =>
      obtain ⟨r, s', hq, hc⟩ := Ends.serve h
      exact .node (.block hq.sequence) hc
  | branch c yes no =>
      obtain ⟨r, s', hq, hc⟩ := Ends.serve (q := .branch c yes no) h
      cases hq with
      | fault hn => exact .node (.branchFault hn) hc
      | ask hn ht =>
          cases ht with
          | branchYes hz hs => exact .node (.branchYes hn hz hs) hc
          | branchNo hz hs => exact .node (.branchNo hn hz hs) hc
  | loop c body =>
      obtain ⟨r, s', hq, hc⟩ := Ends.serve (q := .loop c body) h
      exact .node hq.test hc

/-- The step at a value moves towards what was left to derive. -/
theorem ends_of_hand {v : Value} {f : Frame} {fs : List Frame} {s : State} {m : Machine}
    {o : Outcome} (hs : hand v f fs s = .next m) (h : m.Ends o) :
    Ends ⟨.value v, f :: fs, s⟩ o := by
  cases f with
  | store x => cases hs; cases h with | value hc => exact .value (.frame .store hc)
  | print => cases hs; cases h with | value hc => exact .value (.frame .print hc)
  | left op n =>
      cases hs
      cases h with
      | node hn hc =>
          cases hc with
          | fault => exact .value (.frame (.leftFault hn) .fault)
          | frame ht hc => cases ht with | right hy => exact .value (.frame (.left hn hy) hc)
  | right op a =>
      rw [hand] at hs
      split at hs
      · next n hn =>
        cases hs
        cases h with
        | value hc => exact .value (.frame (.right (Operator.apply_eq_iff.mp hn)) hc)
      · cases hs
  | control c =>
      cases hs
      obtain ⟨r, s', hq, hc⟩ := Ends.serve h
      exact .value (.frame (.control (Control.takes_of_resume hq)) hc)

theorem ends_of_halt {m : Machine} {o : Outcome} (h : m.step = .halt o) : m.Ends o := by
  obtain ⟨focus, fs, s⟩ := m
  cases focus with
  | node n => cases h
  | value v =>
      cases fs with
      | nil => cases h; exact .value .done
      | cons f fs =>
          cases f with
          | right op a =>
              simp only [step, hand] at h
              split at h
              · cases h
              · next e he =>
                cases h
                exact .value (.frame (.right (Operator.apply_eq_iff.mp he)) .fault)
          | store x => cases h
          | print => cases h
          | left op n => cases h
          | control c => cases h

theorem ends_of_next {m m' : Machine} {o : Outcome} (hs : m.step = .next m') (h : m'.Ends o) :
    m.Ends o := by
  obtain ⟨focus, fs, s⟩ := m
  cases focus with
  | node n => cases hs; exact ends_of_enter h
  | value v =>
      cases fs with
      | nil => cases hs
      | cons f fs => exact ends_of_hand hs h

/-- **What a machine ends with is derivable from where it stands.** -/
theorem ends_of_run {fuel : Nat} {m : Machine} {o : Outcome} (h : m.run fuel = some o) :
    m.Ends o := by
  induction fuel generalizing m with
  | zero => cases h
  | succ fuel ih =>
      rw [run] at h
      split at h
      · next m' hm => exact ends_of_next hm (ih h)
      · next o' hm => cases h; exact ends_of_halt hm

end Machine

/-! ### From the rules to the machine -/

namespace Machine

/-- Some number of steps leads to `o`. -/
def Halts (m : Machine) (o : Outcome) : Prop := ∃ fuel, m.run fuel = some o

theorem Halts.next {m m' : Machine} {o : Outcome} (hs : m.step = .next m') (h : m'.Halts o) :
    m.Halts o := by
  obtain ⟨fuel, hf⟩ := h
  exact ⟨fuel + 1, by rw [run, hs]; exact hf⟩

theorem Halts.halt {m : Machine} {o : Outcome} (hs : m.step = .halt o) : m.Halts o :=
  ⟨1, by rw [run, hs]⟩

/-- A result that arises under these frames leads to `o`. -/
def Leads (fs : List Frame) (s : State) (o : Outcome) : Except Fault Value → Prop
  | .ok v => Halts ⟨.value v, fs, s⟩ o
  | .error f => o = (.error f, s)

end Machine

open Machine

/-- Statements are asked for in order by `q`, which is then left with `q []`. -/
def Request.Ordered (q : List Node → Request) : Prop :=
  ∀ n ss, ∃ c, q (n :: ss) = .ask n c ∧ ∀ v, c.resume v = q ss

theorem Request.ordered_sequence : Ordered .sequence :=
  fun _ rest => ⟨.sequence rest, rfl, fun _ => rfl⟩

theorem Request.ordered_pass (c : Node) (body : List Node) (k : UInt64) :
    Ordered (.pass c body k) :=
  fun _ rest => ⟨.pass c body rest k, rfl, fun _ => rfl⟩

/-- The machine carries the task from `s` to `r` and `s'`, whatever the frames. -/
def Task.Runs : Task → State → Except Fault Value → State → Prop
  | .node (.loop c body), s, r, s' =>
      ∀ k fs o, Leads fs s' o r → Halts ⟨.node c, .control (.test c body k) :: fs, s⟩ o
  | .node n, s, r, s' => ∀ fs o, Leads fs s' o r → Halts ⟨.node n, fs, s⟩ o
  | .sequence ss, s, r, s' =>
      ∀ q fs o, Request.Ordered q →
        (match r with
          | .ok _ => Halts (serve (q []) fs s') o
          | .error f => o = (.error f, s')) → Halts (serve (q ss) fs s) o

/-- A loop is met at its condition, so a node is carried through in every case. -/
theorem Task.Runs.node {n : Node} {s s' : State} {r : Except Fault Value}
    (h : Task.Runs (.node n) s r s') {fs : List Frame} {o : Outcome} (ho : Leads fs s' o r) :
    Halts ⟨.node n, fs, s⟩ o := by
  cases n with
  | loop c body => exact .next rfl (h 0 fs o ho)
  | _ => exact h fs o ho

/-- The machine at a construct that has asked for a node. -/
theorem Task.Runs.asked {n : Node} {c : Control} {s s₁ : State} {v : Value}
    (h : Task.Runs (.node n) s (.ok v) s₁) {fs : List Frame} {o : Outcome}
    (ho : Halts (serve (c.resume v) fs s₁) o) : Halts (serve (.ask n c) fs s) o :=
  h.node (r := .ok v) (.next rfl ho)

theorem Task.Runs.body {c : Node} {body : List Node} {s s₁ : State} {v : Value}
    (hc : Task.Runs (.node c) s (.ok v) s₁) (hv : v.toInt ≠ 0) {k : UInt64} {fs : List Frame}
    {o : Outcome} (ho : Halts (serve (.pass c body k body) fs s₁) o) :
    Halts ⟨.node c, .control (.test c body k) :: fs, s⟩ o := by
  refine hc.asked (c := .test c body k) ?_
  rw [Control.resume, if_pos (Value.holds_iff.mpr hv)]
  exact ho

/-- A sequence has no value of its own. -/
theorem Evaluates.sequence_unit : ∀ {ss : List Node} {s s' : State} {v : Value},
    Evaluates (.sequence ss) s (.ok v) s' → v = .unit
  | [], _, _, _, .nil => rfl
  | _ :: _, _, _, _, .cons _ h => h.sequence_unit

theorem Task.Runs.sequence {ss : List Node} {s s' : State} {r : Except Fault Value}
    (hr : Task.Runs (.sequence ss) s r s') (h : Evaluates (.sequence ss) s r s')
    {fs : List Frame} {o : Outcome} (ho : Leads fs s' o r) :
    Halts (serve (.sequence ss) fs s) o := by
  refine hr .sequence fs o Request.ordered_sequence ?_
  cases r with
  | ok v => exact h.sequence_unit ▸ ho
  | error f => exact ho

/-- **A derivation is carried through by the machine**, under any frames. -/
theorem Evaluates.runs {t : Task} {s s' : State} {r : Except Fault Value}
    (h : Evaluates t s r s') : t.Runs s r s' := by
  induction h with
  | number | text | var => exact fun fs o ho => .next rfl ho
  | @input x s s' n ha =>
      intro fs o ho
      have hstep : step ⟨.node (.input x), fs, s⟩ =
          .next ⟨.value (.int n), fs, s'.assign x (.int n)⟩ := by
        rw [step, enter, State.ask_eq_iff.mpr ha]
      exact .next hstep ho
  | assign _ ih => exact fun fs o ho => .next rfl (ih.node (r := .ok _) (.next rfl ho))
  | assignFault _ ih => exact fun fs o ho => .next rfl (ih.node (r := .error _) ho)
  | print _ ih => exact fun fs o ho => .next rfl (ih.node (r := .ok _) (.next rfl ho))
  | printFault _ ih => exact fun fs o ho => .next rfl (ih.node (r := .error _) ho)
  | @binary op l n s s₁ s₂ a b c _ _ hy ihl ihr =>
      intro fs o ho
      refine .next rfl (ihl.node (r := .ok a) (.next rfl (ihr.node (r := .ok b) ?_)))
      have happ := hy.apply
      cases c with
      | ok n =>
          have hstep : step ⟨.value b, .right op a.toInt :: fs, s₂⟩ =
              .next ⟨.value (.int n), fs, s₂⟩ := by
            rw [step, hand, happ]
          exact .next hstep ho
      | error f =>
          subst ho
          refine .halt ?_
          rw [step, hand, happ]
  | leftFault _ ih => exact fun fs o ho => .next rfl (ih.node (r := .error _) ho)
  | rightFault _ _ ihl ihr =>
      exact fun fs o ho =>
        .next rfl (ihl.node (r := .ok _) (.next rfl (ihr.node (r := .error _) ho)))
  | @branchYes c yes no s s₁ s₂ v r _ hv hs ihc ihs =>
      refine fun fs o ho => .next rfl (ihc.asked (c := .branch yes no) ?_)
      rw [Control.resume, if_pos (Value.holds_iff.mpr hv)]
      exact ihs.sequence hs ho
  | @branchNo c yes no s s₁ s₂ v r _ hv hs ihc ihs =>
      refine fun fs o ho => .next rfl (ihc.asked (c := .branch yes no) ?_)
      rw [Control.resume, if_neg (Value.not_holds_iff.mpr hv)]
      exact ihs.sequence hs ho
  | branchFault _ ih => exact fun fs o ho => .next rfl (ih.node (r := .error _) ho)
  | @loopEnd c body s s' v _ hv ih =>
      refine fun k fs o ho => ih.asked (c := .test c body k) ?_
      rw [Control.resume, if_neg (Value.not_holds_iff.mpr hv)]
      exact ho
  | loopPass _ hv _ _ ihc ihb ihl =>
      -- Behind the body the machine stands at the condition again, with one pass more.
      exact fun k fs o ho => ihc.body hv
        (ihb (.pass _ _ k) fs o (Request.ordered_pass _ _ k) (ihl (k + 1) fs o ho))
  | loopFault _ ih => exact fun k fs o ho => ih.node (r := .error _) ho
  | passFault _ hv _ ihc ihb =>
      exact fun k fs o ho => ihc.body hv (ihb (.pass _ _ k) fs o (Request.ordered_pass _ _ k) ho)
  | block h ih => exact fun fs o ho => .next rfl (ih.sequence h ho)
  | nil => exact fun q fs o _ ho => ho
  | cons _ _ ihn ihs =>
      intro q fs o hq ho
      obtain ⟨c, hc, hr⟩ := hq _ _
      rw [hc]
      refine ihn.asked ?_
      rw [hr]
      exact ihs q fs o hq ho
  | stop _ ih =>
      intro q fs o hq ho
      obtain ⟨c, hc, -⟩ := hq _ _
      rw [hc]
      exact ih.node (r := .error _) ho

/-- The rules derive what the machine ends with. -/
theorem evaluates_of_evaluate {fuel : Nat} {n : Node} {s s' : State} {r : Except Fault Value}
    (h : evaluate fuel n s = some (r, s')) : Evaluates (.node n) s r s' := by
  cases ends_of_run h with
  | node hn hc =>
      cases hc with
      | done => exact hn
      | fault => exact hn

/-- The machine ends with what the rules derive. -/
theorem Evaluates.exists_evaluate {n : Node} {s s' : State} {r : Except Fault Value}
    (h : Evaluates (.node n) s r s') : ∃ fuel, evaluate fuel n s = some (r, s') := by
  refine h.runs.node ?_
  cases r with
  | ok v => exact .halt rfl
  | error f => rfl

/-- **The machine ends as the rules derive**: evaluating a node ends with a result in a state,
within some number of steps, exactly when the rules derive that result and state. -/
theorem evaluate_iff_evaluates (n : Node) (s s' : State) (r : Except Fault Value) :
    (∃ fuel, evaluate fuel n s = some (r, s')) ↔ Evaluates (.node n) s r s' :=
  ⟨fun ⟨_, h⟩ => evaluates_of_evaluate h, Evaluates.exists_evaluate⟩

/-! ### One outcome -/

/-- A machine ends with one outcome, whatever number of steps it is given. -/
theorem Machine.Halts.unique {m : Machine} {o o' : Outcome} (h : m.Halts o) (h' : m.Halts o') :
    o = o' := by
  obtain ⟨fuel, hf⟩ := h
  obtain ⟨fuel', hf'⟩ := h'
  induction fuel generalizing m fuel' with
  | zero => cases hf
  | succ fuel ih =>
      cases fuel' with
      | zero => cases hf'
      | succ fuel' =>
          rw [Machine.run] at hf hf'
          cases hs : m.step with
          | next m' =>
              rw [hs] at hf hf'
              exact ih hf fuel' hf'
          | halt out =>
              rw [hs] at hf hf'
              exact (Option.some.inj hf).symm.trans (Option.some.inj hf')

/-- The rules derive one result and one state. -/
theorem Evaluates.unique {n : Node} {s s₁ s₂ : State} {r₁ r₂ : Except Fault Value}
    (h₁ : Evaluates (.node n) s r₁ s₁) (h₂ : Evaluates (.node n) s r₂ s₂) :
    r₁ = r₂ ∧ s₁ = s₂ :=
  Prod.mk.inj (Machine.Halts.unique h₁.exists_evaluate h₂.exists_evaluate)

/-! ### Sequences -/

/-- **A sequence runs as its two parts**, and the second only if the first ends without a fault. -/
theorem Evaluates.sequence_append_iff {ms ns : List Node} {s s' : State}
    {r : Except Fault Value} :
    Evaluates (.sequence (ms ++ ns)) s r s' ↔
      (∃ f, r = .error f ∧ Evaluates (.sequence ms) s (.error f) s') ∨
        ∃ v s₁, Evaluates (.sequence ms) s (.ok v) s₁ ∧ Evaluates (.sequence ns) s₁ r s' := by
  induction ms generalizing s with
  | nil =>
      constructor
      · exact fun h => .inr ⟨_, _, .nil, h⟩
      · rintro (⟨f, -, ⟨⟩⟩ | ⟨_, _, ⟨⟩, h⟩)
        exact h
  | cons n ms ih =>
      constructor
      · intro h
        cases h with
        | cons hn h =>
            rcases ih.mp h with ⟨f, rfl, hf⟩ | ⟨v, s₁, hv, hns⟩
            · exact .inl ⟨f, rfl, .cons hn hf⟩
            · exact .inr ⟨v, s₁, .cons hn hv, hns⟩
        | stop hn => exact .inl ⟨_, rfl, .stop hn⟩
      · rintro (⟨f, rfl, h⟩ | ⟨v, s₁, h, hns⟩)
        · cases h with
          | cons hn h => exact .cons hn (ih.mpr (.inl ⟨f, rfl, h⟩))
          | stop hn => exact .stop hn
        · cases h with
          | cons hn h => exact .cons hn (ih.mpr (.inr ⟨v, s₁, h, hns⟩))

end Treewalk
