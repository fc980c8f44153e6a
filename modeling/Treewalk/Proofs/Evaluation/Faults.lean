import Treewalk.Proofs.Evaluation.Agreement
import Treewalk.Proofs.Evaluation.Simulation

/-!
# Evaluation — Faults

A zero divisor is the one thing that ends a run before its time.  Names that were never assigned,
texts where an integer is expected, sums that wrap around and inputs that fail all have a value.

* `Evaluates.reaches`: the machine comes from a node to its value, under any frames.
* `Evaluates.stumbles`: a derivation that ends with a fault has come to the quotient or remainder
  that the fault tells of, and there the divisor is zero or a text.
* `only_zero_divisors_fault`: so a tree that divides by numbers other than zero alone never ends
  with a fault, and all that it leaves on the error channel are the warnings of its inputs.
-/

namespace Treewalk

open Machine

/-! ### From a node to its value -/

/-- A machine that halts with a value looks at it and has no frames left. -/
theorem Machine.eq_of_halt_ok {m : Machine} {v : Value} {s : State}
    (h : m.step = .halt (.ok v, s)) : m = ⟨.value v, [], s⟩ := by
  obtain ⟨focus, fs, t⟩ := m
  cases focus with
  | node n => cases h
  | value w =>
      cases fs with
      | nil => cases h; rfl
      | cons f fs =>
          cases f with
          | right op a =>
              simp only [step, hand] at h
              split at h <;> cases h
          | store x | print | left op n | control c => cases h

/-- **The machine comes from a node to its value**, under any frames. -/
theorem Evaluates.reaches {n : Node} {s s' : State} {v : Value}
    (h : Evaluates (.node n) s (.ok v) s') (fs : List Frame) :
    Reaches ⟨.node n, fs, s⟩ ⟨.value v, fs, s'⟩ := by
  obtain ⟨fuel, hf⟩ := h.exists_evaluate
  obtain ⟨m, hr, hm⟩ := exists_reaches_halt hf
  rw [eq_of_halt_ok hm] at hr
  exact hr.under fs

/-- A construct that has asked for a node comes to the value and goes on with it. -/
theorem Evaluates.reaches_asked {n : Node} {s s' : State} {v : Value}
    (h : Evaluates (.node n) s (.ok v) s') (c : Control) (fs : List Frame) :
    Reaches (serve (.ask n c) fs s) (serve (c.resume v) fs s') :=
  (h.reaches _).trans (.next rfl .refl)

/-- A construct that has statements ahead of it comes from the first to those behind it. -/
theorem Evaluates.reaches_rest {q : List Node → Request} (hq : Request.Ordered q) {n : Node}
    {s s' : State} {v : Value} (h : Evaluates (.node n) s (.ok v) s') (ss : List Node)
    (fs : List Frame) : Reaches (serve (q (n :: ss)) fs s) (serve (q ss) fs s') := by
  obtain ⟨c, hc, hresume⟩ := hq n ss
  have hr := h.reaches_asked c fs
  rw [hresume] at hr
  rwa [hc]

/-- And so to the end of them all. -/
theorem Evaluates.reaches_sequence {q : List Node → Request} (hq : Request.Ordered q)
    (fs : List Frame) : ∀ {ss : List Node} {s s' : State} {v : Value},
    Evaluates (.sequence ss) s (.ok v) s' → Reaches (serve (q ss) fs s) (serve (q []) fs s')
  | [], _, _, _, .nil => .refl
  | _ :: ss, _, _, _, .cons hn hss =>
      (hn.reaches_rest hq ss fs).trans (hss.reaches_sequence hq fs)

/-- A loop whose condition holds comes to its body. -/
theorem Evaluates.reaches_body {c : Node} {s s' : State} {v : Value}
    (h : Evaluates (.node c) s (.ok v) s') (hv : v.toInt ≠ 0) (body : List Node) (k : UInt64)
    (fs : List Frame) :
    Reaches ⟨.node c, .control (.test c body k) :: fs, s⟩
      (serve (.pass c body k body) fs s') := by
  have hr := h.reaches_asked (.test c body k) fs
  rw [Control.resume, if_pos (Value.holds_iff.mpr hv)] at hr
  exact hr

/-! ### Zero divisors -/

/-- An operator faults at a zero divisor only, and the fault names it. -/
theorem Operator.Yields.eq_operator {op : Operator} {a b : Int64} {f : Fault}
    (h : op.Yields a b (.error f)) : op = f.operator ∧ b = 0 := by
  cases h with
  | divZero hb => exact ⟨rfl, Int64.toInt_eq_zero_iff.mp hb⟩
  | modZero hb => exact ⟨rfl, Int64.toInt_eq_zero_iff.mp hb⟩

theorem Value.toInt_eq_zero_iff {v : Value} : v.toInt = 0 ↔ v = .int 0 ∨ ∃ t, v = .text t := by
  cases v with
  | int n => simp [Value.toInt]
  | text t => simp [Value.toInt]

/-- The machine halts with the fault of its operator at a right operand that counts as zero. -/
theorem Machine.step_zero (f : Fault) {b : Value} (hb : b.toInt = 0) (a : Int64) (fs : List Frame)
    (s : State) : step ⟨.value b, .right f.operator a :: fs, s⟩ = .halt (.error f, s) := by
  cases f with
  | divisionByZero => rw [step, hand, hb]; rfl
  | moduloByZero => rw [step, hand, hb]; rfl

/-- `m.Stumbles f s'`: the run of `m` comes to the operator that `f` tells of, and there the left
operand has a value and the right one, evaluated behind it, a value that counts as zero, with state
`s'` behind both. -/
inductive Machine.Stumbles (m : Machine) (f : Fault) (s' : State) : Prop where
  | zero {l r : Node} {fs : List Frame} {s₀ s₁ : State} {a b : Value} :
      m.Reaches ⟨.node (.binary f.operator l r), fs, s₀⟩ → Evaluates (.node l) s₀ (.ok a) s₁ →
      Evaluates (.node r) s₁ (.ok b) s' → b.toInt = 0 → Stumbles m f s'

theorem Machine.Reaches.stumbles {m m₁ : Machine} (h : m.Reaches m₁) {f : Fault} {s' : State}
    (hs : m₁.Stumbles f s') : m.Stumbles f s' := by
  obtain ⟨hr, hl, hr', hb⟩ := hs
  exact .zero (h.trans hr) hl hr' hb

theorem Machine.Stumbles.next {m m₁ : Machine} (h : m.step = .next m₁) {f : Fault} {s' : State}
    (hs : m₁.Stumbles f s') : m.Stumbles f s' :=
  (Reaches.next h .refl).stumbles hs

/-- The machine stumbles on its way through the task, whatever the frames.  A loop that goes on is
met at its condition, with some number of passes behind it. -/
def Task.Stumbles : Task → State → Fault → State → Prop
  | .node (.loop c body), s, f, s' =>
      ∀ k fs, Machine.Stumbles ⟨.node c, .control (.test c body k) :: fs, s⟩ f s'
  | .node n, s, f, s' => ∀ fs, Machine.Stumbles ⟨.node n, fs, s⟩ f s'
  | .sequence ss, s, f, s' =>
      ∀ q fs, Request.Ordered q → Machine.Stumbles (serve (q ss) fs s) f s'

theorem Task.Stumbles.node {n : Node} {s s' : State} {f : Fault}
    (h : Task.Stumbles (.node n) s f s') (fs : List Frame) :
    Machine.Stumbles ⟨.node n, fs, s⟩ f s' := by
  cases n with
  | loop c body => exact .next rfl (h 0 fs)
  | _ => exact h fs

theorem Task.Stumbles.sequence {ss : List Node} {s s' : State} {f : Fault}
    (h : Task.Stumbles (.sequence ss) s f s') (fs : List Frame) :
    Machine.Stumbles (serve (.sequence ss) fs s) f s' :=
  h .sequence fs Request.ordered_sequence

/-- **A derivation that ends with a fault has come to a zero divisor.** -/
theorem Evaluates.stumbles {t : Task} {s s' : State} {f : Fault}
    (h : Evaluates t s (.error f) s') : t.Stumbles s f s' := by
  generalize hf : Except.error f = r at h
  induction h with
  | number | text | var | assign | input | print | loopEnd | nil => cases hf
  | assignFault _ ih => exact fun fs => .next rfl ((ih hf).node _)
  | printFault _ ih => exact fun fs => .next rfl ((ih hf).node _)
  | @binary op l n s s₁ s₂ a b c hl hr hy =>
      cases c with
      | ok n => cases hf
      | error g =>
          cases hf
          obtain ⟨rfl, hb⟩ := hy.eq_operator
          exact fun fs => .zero .refl hl hr hb
  | leftFault _ ih => exact fun fs => .next rfl ((ih hf).node _)
  | rightFault hl _ _ ihr =>
      exact fun fs => .next rfl ((hl.reaches _).stumbles (.next rfl ((ihr hf).node _)))
  | @branchYes c yes no s s₁ s₂ v r hc hv _ _ ihs =>
      intro fs
      have hr := hc.reaches_asked (.branch yes no) fs
      rw [Control.resume, if_pos (Value.holds_iff.mpr hv)] at hr
      exact .next rfl (hr.stumbles ((ihs hf).sequence fs))
  | @branchNo c yes no s s₁ s₂ v r hc hv _ _ ihs =>
      intro fs
      have hr := hc.reaches_asked (.branch yes no) fs
      rw [Control.resume, if_neg (Value.not_holds_iff.mpr hv)] at hr
      exact .next rfl (hr.stumbles ((ihs hf).sequence fs))
  | branchFault _ ih => exact fun fs => .next rfl ((ih hf).node _)
  | @loopPass c body s s₁ s₂ s₃ v w r hc hv hb _ _ _ ihl =>
      -- Behind the body the machine stands at the condition again, with one pass more.
      intro k fs
      have hbody := hb.reaches_sequence (Request.ordered_pass c body k) fs
      exact (hc.reaches_body hv body k fs).stumbles (hbody.stumbles (ihl hf (k + 1) fs))
  | loopFault _ ih => exact fun k fs => (ih hf).node _
  | @passFault c body s s₁ s₂ v g hc hv _ _ ihb =>
      exact fun k fs => (hc.reaches_body hv body k fs).stumbles
        (ihb hf (.pass c body k) fs (Request.ordered_pass c body k))
  | block _ ih => exact fun fs => .next rfl ((ih hf).sequence fs)
  | cons hn _ _ ihs =>
      exact fun q fs hq => (hn.reaches_rest hq _ fs).stumbles (ihs hf q fs hq)
  | stop _ ih =>
      intro q fs hq
      obtain ⟨c, hc, -⟩ := hq _ _
      rw [hc]
      exact (ih hf).node _

/-! ### Parts of the tree -/

/-- Every node that a run comes to is part of the tree. -/
theorem Machine.Reaches.part {n c : Node} {s t : State} {fs : List Frame}
    (h : (Machine.start n s).Reaches ⟨.node c, fs, t⟩) : c.Part n :=
  (Kinship.lawful_keeping (N := (·.Part n)) (P := fun _ => True) Node.Part.children
    (fun _ _ _ _ _ => trivial) (fun _ _ _ => trivial) (fun _ _ => trivial)).keeps_node
    .refl trivial h

/-! ### Trees that divide by numbers alone -/

/-- What the node itself divides by. -/
def Node.divisor? : Node → Option Node
  | binary .div _ r => some r
  | binary .mod _ r => some r
  | _ => none

/-- The node is a number other than zero. -/
def Node.isNonzero : Node → Bool
  | number k => k != 0
  | _ => false

/-- Every divisor in the tree is a number other than zero. -/
def Node.Guarded (n : Node) : Prop :=
  ∀ m : Node, m.Part n → ∀ r ∈ m.divisor?, r.isNonzero = true

instance (n : Node) : Decidable n.Guarded :=
  inferInstanceAs (Decidable (∀ m : Node, m.Part n → ∀ r ∈ m.divisor?, r.isNonzero = true))

theorem Node.divisor?_operator (f : Fault) (l r : Node) :
    (Node.binary f.operator l r).divisor? = some r := by
  cases f <;> rfl

theorem Node.isNonzero_iff {n : Node} : n.isNonzero = true ↔ ∃ k, n = .number k ∧ k ≠ 0 := by
  cases n <;> simp [isNonzero]

/-- **A tree that divides by numbers other than zero alone never faults.** -/
theorem Node.Guarded.ne_fault {n : Node} (h : n.Guarded) (fuel : Nat) (s : State) (f : Fault)
    (s' : State) : evaluate fuel n s ≠ some (.error f, s') := by
  intro he
  obtain ⟨hop, -, hr, hb⟩ := (evaluates_of_evaluate he).stumbles.node []
  obtain ⟨k, rfl, hk⟩ := isNonzero_iff.mp (h _ hop.part _ (divisor?_operator f _ _))
  cases hr with
  | number => exact hk hb

/-! ### The error channel -/

/-- An input leaves one warning at most. -/
theorem State.ask_errors (s : State) (x : String) :
    (s.ask x).2.console.errors = s.console.errors ∨
      ∃ e : InputError, (s.ask x).2.console.errors = s.console.errors ++ (e.warning x ++ "\n") := by
  unfold State.ask
  split
  · exact .inr ⟨_, rfl⟩
  · split
    · exact .inl rfl
    · exact .inr ⟨_, rfl⟩

theorem InputError.head_warning (e : InputError) (x : String) :
    (e.warning x).toList.head? = some 'w' := by
  have hhead (y z : String) : ("w" ++ y ++ x ++ ": " ++ z).toList.head? = some 'w' := by simp
  cases e with
  | unavailable why => exact hhead "arning: cannot open terminal for input of " why.message
  | unreadable why => exact hhead "arning: invalid integer input for " (message (.unreadable why))
  | closed => exact hhead "arning: invalid integer input for " (message .closed)
  | malformed word => exact hhead "arning: invalid integer input for " (message (.malformed word))

theorem Fault.head_report (f : Fault) : f.report.toList.head? = some 'r' := by
  cases f <;> decide

/-- No warning reads like the report of a fault. -/
theorem InputError.warning_ne_report (e : InputError) (x : String) (f : Fault) :
    e.warning x ≠ f.report := by
  intro h
  have hhead := e.head_warning x
  rw [h, f.head_report] at hhead
  exact absurd hhead (by decide)

/-- `n.Warns err err'`: behind `err`, the error channel holds warnings of inputs of the tree and
nothing else. -/
def Node.Warns (n : Node) (err err' : String) : Prop :=
  ∃ ws : List (String × InputError), (∀ w ∈ ws, (Node.input w.1).Part n) ∧
    err' = err ++ String.join (ws.map fun w => w.2.warning w.1 ++ "\n")

theorem Node.Warns.refl (n : Node) (err : String) : n.Warns err err :=
  ⟨[], by simp, by simp⟩

theorem Node.Warns.ask {n : Node} {err x : String} {s : State} (h : n.Warns err s.console.errors)
    (hx : (Node.input x).Part n) : n.Warns err (s.ask x).2.console.errors := by
  obtain ⟨ws, hws, hs⟩ := h
  rcases s.ask_errors x with he | ⟨e, he⟩
  · exact ⟨ws, hws, he.trans hs⟩
  · refine ⟨ws ++ [(x, e)], ?_, ?_⟩
    · intro w hw
      rcases List.mem_append.mp hw with hw | hw
      · exact hws w hw
      · rw [List.mem_singleton.mp hw]
        exact hx
    · rw [he, hs, List.map_append, String.join_append, List.map_singleton, String.join_cons,
        String.join_nil, String.append_empty, String.append_assoc]

/-- An evaluation leaves the warnings of its inputs on the error channel, and nothing else. -/
theorem evaluate_warns {fuel : Nat} {n : Node} {s : State} {o : Outcome}
    (h : evaluate fuel n s = some o) : n.Warns s.console.errors o.2.console.errors := by
  obtain ⟨m, hr, hm⟩ := Machine.exists_reaches_of_run h
  rw [← hm]
  have hlawful := Kinship.lawful_keeping (N := (·.Part n))
    (P := fun t => n.Warns s.console.errors t.console.errors) Node.Part.children
    (fun _ _ _ _ ht => ht) (fun hx _ ht => ht.ask hx) (fun _ ht => ht)
  exact hlawful.keeps .refl (.refl n _) hr

/-- **Only zero divisors are fatal, and the fault names the operator.**  If a run ends with a
fault, it has come to a quotient or remainder of the tree, whichever the fault tells of, and there
its right operand evaluated to zero or to a text, which the machine holds as it halts.  A tree whose
divisors all are numbers other than zero never ends with a fault; where a program of that kind ends,
it succeeds, and what it leaves on the error channel are warnings of its inputs, of which none is
the report of a fault. -/
theorem only_zero_divisors_fault (n : Node) (s : State) :
    (∀ fuel f s', evaluate fuel n s = some (.error f, s') →
      ∃ l r fs s₀ s₁ a b, (Node.binary f.operator l r).Part n ∧
        (Machine.start n s).Reaches ⟨.node (.binary f.operator l r), fs, s₀⟩ ∧
        Evaluates (.node l) s₀ (.ok a) s₁ ∧ Evaluates (.node r) s₁ (.ok b) s' ∧
        (Machine.start n s).Reaches ⟨.value b, .right f.operator a.toInt :: fs, s'⟩ ∧
        step ⟨.value b, .right f.operator a.toInt :: fs, s'⟩ = .halt (.error f, s') ∧
        (b = .int 0 ∨ ∃ t, b = .text t)) ∧
    (n.Guarded → (∀ fuel f s', evaluate fuel n s ≠ some (.error f, s')) ∧
      ∀ fuel status s', execute fuel n s = some (status, s') → status = .success ∧
        ∃ ws : List (String × InputError),
          (∀ w ∈ ws, (Node.input w.1).Part n ∧ ∀ f : Fault, w.2.warning w.1 ≠ f.report) ∧
          s'.console.errors =
            s.console.errors ++ String.join (ws.map fun w => w.2.warning w.1 ++ "\n")) := by
  refine ⟨fun fuel f s' h => ?_, fun hn => ⟨fun fuel => hn.ne_fault fuel s, ?_⟩⟩
  · obtain ⟨hop, hl, hr, hb⟩ := (evaluates_of_evaluate h).stumbles.node []
    exact ⟨_, _, _, _, _, _, _, hop.part, hop, hl, hr,
      hop.trans (.next rfl ((hl.reaches _).trans (.next rfl (hr.reaches _)))),
      step_zero f hb _ _ _, Value.toInt_eq_zero_iff.mp hb⟩
  · intro fuel status s' h
    simp only [execute, run, Option.map_map, Option.map_eq_some_iff, Prod.exists] at h
    obtain ⟨r, t, he, hs⟩ := h
    cases r with
    | error f => exact (hn.ne_fault _ _ _ _ he).elim
    | ok v =>
        obtain ⟨ws, hws, herr⟩ := evaluate_warns he
        cases hs
        exact ⟨rfl, ws, fun w hw => ⟨hws w hw, w.2.warning_ne_report w.1⟩, herr⟩

/-- A loop faults in its third pass; and a program ends that divides by numbers alone, with an input
that fails, the least word divided by minus one, a text and a name that was never assigned. -/
theorem third_pass_faults :
    let s : State := .start (.script [])
    let down : Node := .block [.assign "x" (.number 2),
      .loop (.binary .greater (.var "x") (.number (-1))) [
        .print (.binary .mod (.number 7) (.var "x")),
        .assign "x" (.binary .sub (.var "x") (.number 1))]]
    let behind : State := ⟨{ entries := [("x", .int 0)] }, ⟨"1\n0\n", ""⟩, .script []⟩
    let sure : Node := .block [.input "n",
      .print (.binary .div (.number Int64.minValue) (.number (-1))),
      .print (.binary .mod (.text "t") (.number 3)), .print (.binary .div (.var "y") (.number 2))]
    let warning : String :=
      "warning: invalid integer input for n: input closed before a line was read\n"
    evaluate 80 down s = some (.error .moduloByZero, behind) ∧
    (∃ l r fs s₀ s₁ a b, (Node.binary .mod l r).Part down ∧
      (Machine.start down s).Reaches ⟨.node (.binary .mod l r), fs, s₀⟩ ∧
      Evaluates (.node l) s₀ (.ok a) s₁ ∧ Evaluates (.node r) s₁ (.ok b) behind ∧
      (Machine.start down s).Reaches ⟨.value b, .right .mod a.toInt :: fs, behind⟩ ∧
      step ⟨.value b, .right .mod a.toInt :: fs, behind⟩ = .halt (.error .moduloByZero, behind) ∧
      (b = .int 0 ∨ ∃ t, b = .text t)) ∧
    sure.Guarded ∧ (∀ fuel f s', evaluate fuel sure s ≠ some (.error f, s')) ∧
    execute 80 sure s = some (.success,
      ⟨.empty, ⟨"Input for n: -9223372036854775808\n0\n0\n", warning⟩, .script []⟩) ∧
    ∃ ws : List (String × InputError),
      (∀ w ∈ ws, (Node.input w.1).Part sure ∧ ∀ f : Fault, w.2.warning w.1 ≠ f.report) ∧
      warning = "" ++ String.join (ws.map fun w => w.2.warning w.1 ++ "\n") := by
  intro s down behind sure warning
  have hdown : evaluate 80 down s = some (.error .moduloByZero, behind) := by decide +kernel
  have hsure : sure.Guarded := by decide +kernel
  have hends : execute 80 sure s = some (.success,
      ⟨.empty, ⟨"Input for n: -9223372036854775808\n0\n0\n", warning⟩, .script []⟩) := by
    decide +kernel
  obtain ⟨hnever, hstatus⟩ := (only_zero_divisors_fault sure s).2 hsure
  obtain ⟨-, hwarns⟩ := hstatus 80 _ _ hends
  exact ⟨hdown, (only_zero_divisors_fault down s).1 80 .moduloByZero behind hdown, hsure, hnever,
    hends, hwarns⟩

end Treewalk
