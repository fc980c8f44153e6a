import Treewalk.Proofs.Evaluation.Leaves

/-!
# Evaluation — A run step by step

The machines that a run comes to (`Machine.Reaches`), and what it writes on the output on its way: a
prompt, where an input finds its supply open, or a value that is printed (`Machine.trace`).

* `exists_reaches_of_run`: a run ends in the state of the last machine that it comes to.
* `Reaches.under`: frames further out do not change where a run comes to.
* `run_output`: the output behind a run is the output before it and the text of each event.
-/

namespace Treewalk

/-- What one step writes on the output. -/
inductive Event where
  /-- The prompt for the input of a name. -/
  | prompt (name : String)
  /-- A value on a line. -/
  | print (v : Value)
  deriving DecidableEq, Repr

/-- What is written. -/
def Event.text : Event → String
  | prompt x => "Input for " ++ x ++ ": "
  | print v => v.display ++ "\n"

/-- The output with the events behind it. -/
def Event.onto (out : String) (es : List Event) : String :=
  es.foldl (fun out e => out ++ e.text) out

theorem Event.onto_append (out : String) (es es' : List Event) :
    onto out (es ++ es') = onto (onto out es) es' :=
  List.foldl_append

namespace Machine

/-! ### Steps -/

/-- The run of `m` comes to `m'`. -/
inductive Reaches : Machine → Machine → Prop where
  | refl {m : Machine} : Reaches m m
  | next {m m₁ m' : Machine} : m.step = .next m₁ → Reaches m₁ m' → Reaches m m'

theorem serve_state (q : Request) (fs : List Frame) (s : State) : (serve q fs s).state = s := by
  cases q <;> rfl

/-- A machine halts in its state. -/
theorem state_of_halt {m : Machine} {o : Outcome} (h : m.step = .halt o) : o.2 = m.state := by
  obtain ⟨focus, fs, s⟩ := m
  cases focus with
  | node n => cases h
  | value v =>
      cases fs with
      | nil => cases h; rfl
      | cons f fs =>
          cases f with
          | right op a =>
              simp only [step, hand] at h
              split at h
              · cases h
              · cases h; rfl
          | store x | print | left op n | control c => cases h

theorem Reaches.trans {m m₁ m₂ : Machine} (h : m.Reaches m₁) (h' : m₁.Reaches m₂) :
    m.Reaches m₂ := by
  induction h with
  | refl => exact h'
  | next hs _ ih => exact .next hs (ih h')

/-- A run that ends has come to a machine that halts. -/
theorem exists_reaches_halt {fuel : Nat} {m : Machine} {o : Outcome}
    (h : m.run fuel = some o) : ∃ m', m.Reaches m' ∧ m'.step = .halt o := by
  induction fuel generalizing m with
  | zero => cases h
  | succ fuel ih =>
      rw [run] at h
      split at h
      · next m₁ hm =>
          obtain ⟨m', hr, hs⟩ := ih h
          exact ⟨m', .next hm hr, hs⟩
      · next o' hm =>
          cases h
          exact ⟨m, .refl, hm⟩

/-- A run ends in the state of the last machine that it comes to. -/
theorem exists_reaches_of_run {fuel : Nat} {m : Machine} {o : Outcome}
    (h : m.run fuel = some o) : ∃ m', m.Reaches m' ∧ m'.state = o.2 := by
  obtain ⟨m', hr, hs⟩ := exists_reaches_halt h
  exact ⟨m', hr, (state_of_halt hs).symm⟩

/-! ### Frames further out -/

/-- The machine with frames `gs` further out. -/
def under (gs : List Frame) (m : Machine) : Machine := { m with frames := m.frames ++ gs }

theorem serve_under (q : Request) (fs gs : List Frame) (s : State) :
    (serve q fs s).under gs = serve q (fs ++ gs) s := by
  cases q <;> rfl

/-- **A step looks at the first frame only**, so frames further out stay as they are. -/
theorem step_under {m m' : Machine} (h : m.step = .next m') (gs : List Frame) :
    (m.under gs).step = .next (m'.under gs) := by
  obtain ⟨focus, fs, s⟩ := m
  cases focus with
  | node n =>
      cases h
      cases n with
      | block ss => exact congrArg Step.next (serve_under ..).symm
      | _ => rfl
  | value v =>
      cases fs with
      | nil => cases h
      | cons f fs =>
          cases f with
          | right op a =>
              simp only [under, step, hand, List.cons_append] at h ⊢
              split at h
              · cases h; rfl
              · cases h
          | control c =>
              cases h
              exact congrArg Step.next (serve_under ..).symm
          | store x | print | left op n => cases h; rfl

theorem Reaches.under {m m' : Machine} (h : m.Reaches m') (gs : List Frame) :
    (m.under gs).Reaches (m'.under gs) := by
  induction h with
  | refl => exact .refl
  | next hs _ ih => exact .next (step_under hs gs) ih

/-! ### Events -/

/-- What the next step writes on the output. -/
def event? : Machine → Option Event
  | ⟨.value v, .print :: _, _⟩ => some (.print v)
  | ⟨.node (.input x), _, s⟩ =>
    match s.supply.draw.1 with
    | .ok _ => some (.prompt x)
    | .error _ => none
  | _ => none

/-- What a run writes on the output within `fuel` steps. -/
def trace : Nat → Machine → List Event
  | 0, _ => []
  | fuel + 1, m =>
    match m.step with
    | .next m' => m.event?.toList ++ m'.trace fuel
    | .halt _ => []

/-- An input writes its prompt, if the supply opens, and nothing else on the output. -/
theorem ask_output (s : State) (x : String) (fs : List Frame) :
    (s.ask x).2.console.output =
      Event.onto s.console.output (event? ⟨.node (.input x), fs, s⟩).toList := by
  have h := s.asks_ask x
  generalize (s.ask x).1 = n, (s.ask x).2 = s' at h
  rw [event?]
  cases h with
  | read ho | invalid ho | shut ho =>
      rw [ho.draw]
      rfl

/-- **A step writes its event.** -/
theorem step_output {m m' : Machine} (h : m.step = .next m') :
    m'.state.console.output = Event.onto m.state.console.output m.event?.toList := by
  obtain ⟨focus, fs, s⟩ := m
  cases focus with
  | node n =>
      cases h
      cases n with
      | input x => exact ask_output s x fs
      | block ss => exact congrArg (·.console.output) (serve_state ..)
      | branch c yes no => exact congrArg (·.console.output) (serve_state ..)
      | loop c body => exact congrArg (·.console.output) (serve_state ..)
      | _ => rfl
  | value v =>
      cases fs with
      | nil => cases h
      | cons f fs =>
          cases f with
          | right op a =>
              simp only [step, hand] at h
              split at h
              · cases h; rfl
              · cases h
          | control c =>
              cases h
              exact congrArg (·.console.output) (serve_state ..)
          | store x | print | left op n => cases h; rfl

/-- **A run writes its trace** on the output, event by event. -/
theorem run_output {fuel : Nat} {m : Machine} {o : Outcome} (h : m.run fuel = some o) :
    o.2.console.output = Event.onto m.state.console.output (m.trace fuel) := by
  induction fuel generalizing m with
  | zero => cases h
  | succ fuel ih =>
      rw [run] at h
      rw [trace]
      cases hm : m.step with
      | next m₁ =>
          rw [hm] at h
          simp only [ih h, step_output hm, Event.onto_append]
      | halt o' =>
          rw [hm] at h
          cases h
          rw [state_of_halt hm]
          rfl

end Machine

end Treewalk
