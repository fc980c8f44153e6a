import Treewalk.Proofs.Evaluation.Traces
import Treewalk.Proofs.Text.Lines

/-!
# Evaluation — Accounting for inputs

Where the integers of a run come from, if its supply is a script.  Each input that the run makes
takes the next reply (`Reading`), and nothing but that reply decides what it leaves: the integer
that its name is bound to, a prompt if the reply is one that can be opened, and a warning if there
is no integer in it.  Behind the last reply an input reads the end of a supply that holds nothing.

* `Machine.inputs`: the inputs that a run makes, each with what its name is bound to behind it.
* `Machine.step_beside`: a step that makes no input does not look at the supply or the warnings.
* `Accounts`, `Machine.run_accounts`: a run accounts for every reply, warning and prompt.
* `Machine.run_more`: replies that a run does not come to make no difference.
-/

namespace Treewalk

/-! ### One reading -/

/-- `Reply.Gives a x`: an input that finds reply `a`, or none that is left, reads `x`. -/
inductive Reply.Gives : Option Reply → Except InputError Int64 → Prop where
  | exhausted : Gives none (.error .closed)
  | line {s : String} {x : Except InputError Int64} :
      (Reader.holding (Bytes.encode s)).Gives x → Gives (some (.line s)) x
  | unavailable : Gives (some .unavailable) (.error (.unavailable .noTerminal))

/-- What an input reads that finds this reply, or none. -/
def Reply.answer : Option Reply → Except InputError Int64
  | none => .error .closed
  | some (.line s) => (Reader.holding (Bytes.encode s)).readInteger.1
  | some .unavailable => .error (.unavailable .noTerminal)

theorem Reply.gives_answer (a : Option Reply) : Gives a (answer a) :=
  match a with
  | none => .exhausted
  | some (.line _) => .line (Reader.gives_readInteger _)
  | some .unavailable => .unavailable

/-- One input: the name that it is for, and the reply that it finds, if one is left. -/
structure Reading where
  name : String
  reply : Option Reply
  deriving DecidableEq, Repr

namespace Reading

/-- What is read. -/
def result (r : Reading) : Except InputError Int64 := Reply.answer r.reply

/-- The integer that the name is bound to. -/
def value (r : Reading) : Int64 :=
  match r.result with
  | .ok n => n
  | .error _ => 0

/-- The line on the error channel, and no text if an integer is read. -/
def warning (r : Reading) : String :=
  match r.result with
  | .ok _ => ""
  | .error e => e.warning r.name ++ "\n"

/-- The reply is one that can be opened. -/
def opens (r : Reading) : Bool := r.reply != some .unavailable

/-- The prompt on the output. -/
def event? (r : Reading) : Option Event := if r.opens then some (.prompt r.name) else none

/-- What the name is bound to behind the input. -/
def binding (r : Reading) : String × Option Value := (r.name, some (.int r.value))

end Reading

/-- The input for `x` of a script in which the replies `q` are left. -/
def Reading.next (x : String) (q : List Reply) : Reading := ⟨x, q.head?⟩

/-- **One input takes one reply**, and leaves what the reply gives. -/
theorem State.ask_script (t : Table) (out err : String) (q : List Reply) (x : String) :
    State.ask ⟨t, ⟨out, err⟩, .script q⟩ x =
      ((Reading.next x q).value,
        ⟨t, ⟨Event.onto out (Reading.next x q).event?.toList, err ++ (Reading.next x q).warning⟩,
          .script q.tail⟩) := by
  match q with
  | [] => exact (State.Asks.invalid .exhausted .closed).ask
  | .unavailable :: q => exact (State.Asks.shut .unavailable).ask
  | .line s :: q =>
      have hg := Reader.gives_readInteger (.holding (Bytes.encode s))
      have hresult : (Reading.next x (.line s :: q)).result =
          (Reader.holding (Bytes.encode s)).readInteger.1 := rfl
      rw [Reading.value, Reading.warning, hresult]
      cases hr : (Reader.holding (Bytes.encode s)).readInteger.1 with
      | ok n =>
          rw [hr] at hg
          simp only [String.append_empty]
          exact (State.Asks.read .line hg).ask
      | error e =>
          rw [hr] at hg
          simp only [State.warning_of_gives hg]
          exact (State.Asks.invalid .line hg).ask

theorem InputError.oneLine_invalid {x : String} (hx : OneLine x) {why : String} (hw : OneLine why) :
    OneLine ("warning: invalid integer input for " ++ x ++ ": " ++ why) :=
  hx.between.append hw

/-- The warning of a reading is one line if the name is: what a reply says is told by its first
word, in which there is no blank. -/
theorem Reading.oneLine_warning {r : Reading} (hx : OneLine r.name) {e : InputError}
    (h : r.result = .error e) : OneLine (e.warning r.name) := by
  obtain ⟨x, reply⟩ := r
  have hg := Reply.gives_answer reply
  rw [show Reply.answer reply = .error e from h] at hg
  cases hg with
  | exhausted => exact InputError.oneLine_invalid hx (by decide)
  | unavailable => exact hx.between.append (by decide)
  | @line s _ hg =>
      generalize Bytes.encode s = bytes at hg
      cases hg with
      | closed | notText => exact InputError.oneLine_invalid hx (by decide)
      | @malformed _ _ word _ _ hw _ =>
          obtain ⟨_, _, -, -, hblank, -⟩ := hw
          have hword : '\n' ∉ word := fun hmem => hblank _ hmem (by decide)
          exact InputError.oneLine_invalid hx (oneLine_ofList.mpr hword).between

namespace Machine

/-! ### The inputs of a run -/

/-- The inputs that a run makes within `fuel` steps: each name, and what it is bound to behind the
step. -/
def inputs : Nat → Machine → List (String × Option Value)
  | 0, _ => []
  | fuel + 1, m =>
    match m.step with
    | .next m' => (m.asks?.map fun x => (x, m'.state.table.get? x)).toList ++ m'.inputs fuel
    | .halt _ => []

theorem asks?_eq_some {m : Machine} {x : String} (h : m.asks? = some x) :
    m.focus = .node (.input x) := by
  obtain ⟨focus, fs, s⟩ := m
  cases focus with
  | value v => cases h
  | node n =>
      cases n with
      | input y => cases h; rfl
      | _ => cases h

/-- The step of an input, where the supply is a script. -/
theorem step_input (t : Table) (out err : String) (q : List Reply) (x : String)
    (fs : List Frame) :
    step ⟨.node (.input x), fs, ⟨t, ⟨out, err⟩, .script q⟩⟩ =
      .next ⟨.value (.int (Reading.next x q).value), fs,
        ⟨t.assign x (.int (Reading.next x q).value),
          ⟨Event.onto out (Reading.next x q).event?.toList, err ++ (Reading.next x q).warning⟩,
          .script q.tail⟩⟩ := by
  simp only [step, enter, State.ask_script]
  rfl

theorem event?_input (t : Table) (c : Console) (q : List Reply) (x : String) (fs : List Frame) :
    event? ⟨.node (.input x), fs, ⟨t, c, .script q⟩⟩ = (Reading.next x q).event? := by
  match q with
  | [] => rfl
  | .unavailable :: q => rfl
  | .line s :: q => rfl

/-! ### Steps that make no input -/

end Machine

/-- The state with another supply and other warnings. -/
def State.beside (s : State) (q : Supply) (err : String) : State :=
  { s with supply := q, console := { s.console with errors := err } }

namespace Machine

/-- The machine with another supply and other warnings. -/
def beside (m : Machine) (q : Supply) (err : String) : Machine :=
  { m with state := m.state.beside q err }

/-- What the step leads to, with another supply and other warnings. -/
def Step.beside (q : Supply) (err : String) : Step → Step
  | .next m => .next (m.beside q err)
  | .halt (r, s) => .halt (r, s.beside q err)

theorem serve_beside (r : Request) (fs : List Frame) (s : State) (q : Supply) (err : String) :
    serve r fs (s.beside q err) = (serve r fs s).beside q err := by
  cases r <;> rfl

/-- **A step that makes no input does not look at the supply or the warnings**, and leaves them as
they are. -/
theorem step_beside {m : Machine} (h : m.asks? = none) (q : Supply) (err : String) :
    (m.beside q err).step = m.step.beside q err := by
  obtain ⟨focus, fs, s⟩ := m
  cases focus with
  | node n =>
      cases n with
      | input x => cases h
      | block ss => exact congrArg Step.next (serve_beside ..)
      | _ => rfl
  | value v =>
      cases fs with
      | nil => rfl
      | cons f fs =>
          cases f with
          | right op a =>
              simp only [beside, step, hand]
              split <;> rfl
          | control c => exact congrArg Step.next (serve_beside ..)
          | store x | print | left op n => rfl

/-- Behind a step that makes no input, supply and warnings are those in front of it. -/
theorem state_of_quiet {m m' : Machine} (h : m.step = .next m') (ha : m.asks? = none) :
    m'.state = m'.state.beside m.state.supply m.state.console.errors := by
  have hstep := step_beside ha m.state.supply m.state.console.errors
  rw [show m.beside m.state.supply m.state.console.errors = m from rfl, h] at hstep
  exact congrArg Machine.state (Step.next.inj hstep)

theorem asks?_beside (m : Machine) (q : Supply) (err : String) :
    (m.beside q err).asks? = m.asks? := by
  obtain ⟨focus, fs, s⟩ := m
  cases focus with
  | node n => cases n <;> rfl
  | value v => rfl

theorem event?_beside {m : Machine} (h : m.asks? = none) (q : Supply) (err : String) :
    (m.beside q err).event? = m.event? := by
  obtain ⟨focus, fs, s⟩ := m
  cases focus with
  | node n =>
      cases n with
      | input x => cases h
      | _ => rfl
  | value v =>
      cases fs with
      | nil => rfl
      | cons f fs => cases f <;> rfl

end Machine

/-! ### Accounts -/

/-- The name of a prompt. -/
def Event.prompt? : Event → Option String
  | prompt x => some x
  | print _ => none

theorem Event.onto_eq (out : String) (es : List Event) :
    onto out es = out ++ String.join (es.map text) := by
  induction es generalizing out with
  | nil => exact (String.append_empty ..).symm
  | cons e es ih =>
      rw [List.map_cons, String.join_cons, ← String.append_assoc, ← ih]
      rfl

theorem Reading.prompts_event? (r : Reading) :
    r.event?.toList.filterMap Event.prompt? = ([r].filter opens).map name := by
  cases h : r.opens <;> simp [event?, h, Event.prompt?]

/-- `Accounts q rs es s s'`: on the way from `s`, where the replies `q` are left, to `s'` the inputs
`rs` are made and the events `es` are written. -/
structure Accounts (q : List Reply) (rs : List Reading) (es : List Event) (s s' : State) :
    Prop where
  /-- Each input finds the reply of its place. -/
  replies : ∀ i (h : i < rs.length), rs[i].reply = q[i]?
  /-- As many replies are gone as inputs were made, or all of them. -/
  supply : s'.supply = .script (q.drop rs.length)
  /-- Each input that fails leaves its warning, and nothing else does. -/
  errors : s'.console.errors = s.console.errors ++ String.join (rs.map Reading.warning)
  /-- The output is that of the events. -/
  output : s'.console.output = s.console.output ++ String.join (es.map Event.text)
  /-- Each input whose reply opens leaves its prompt, and nothing else does. -/
  prompts : es.filterMap Event.prompt? = (rs.filter Reading.opens).map Reading.name

namespace Accounts

theorem refl {q : List Reply} {s : State} (hq : s.supply = .script q) : Accounts q [] [] s s where
  replies _ h := absurd h (Nat.not_lt_zero _)
  supply := hq
  errors := (String.append_empty ..).symm
  output := (String.append_empty ..).symm
  prompts := rfl

/-- One input accounts for the next reply. -/
theorem next (x : String) (q : List Reply) {s s' : State} (hq : s'.supply = .script q.tail)
    (he : s'.console.errors = s.console.errors ++ (Reading.next x q).warning)
    (ho : s'.console.output =
      s.console.output ++ String.join ((Reading.next x q).event?.toList.map Event.text)) :
    Accounts q [.next x q] (Reading.next x q).event?.toList s s' where
  replies i hi := by
    obtain rfl : i = 0 := Nat.lt_one_iff.mp hi
    exact List.head?_eq_getElem?
  supply := by rw [hq, List.length_singleton, List.drop_one]
  errors := by rw [he, List.map_singleton, String.join_cons, String.join_nil, String.append_empty]
  output := ho
  prompts := Reading.prompts_event? _

theorem trans {q : List Reply} {rs rs' : List Reading} {es es' : List Event} {s s₁ s' : State}
    (h : Accounts q rs es s s₁) (h' : Accounts (q.drop rs.length) rs' es' s₁ s') :
    Accounts q (rs ++ rs') (es ++ es') s s' where
  replies i hi := by
    by_cases hlt : i < rs.length
    · rw [List.getElem_append_left hlt, h.replies i hlt]
    · rw [List.getElem_append_right (Nat.le_of_not_lt hlt), h'.replies, List.getElem?_drop,
        Nat.add_sub_cancel' (Nat.le_of_not_lt hlt)]
  supply := by rw [h'.supply, List.drop_drop, List.length_append]
  errors := by
    rw [h'.errors, h.errors, List.map_append, String.join_append, String.append_assoc]
  output := by
    rw [h'.output, h.output, List.map_append, String.join_append, String.append_assoc]
  prompts := by
    rw [List.filterMap_append, h.prompts, h'.prompts, List.filter_append, List.map_append]

end Accounts

namespace Machine

/-- A step that makes no input writes no prompt. -/
theorem prompt?_of_quiet {m : Machine} (h : m.asks? = none) :
    m.event?.toList.filterMap Event.prompt? = [] := by
  obtain ⟨focus, fs, s⟩ := m
  cases focus with
  | node n =>
      cases n with
      | input x => cases h
      | _ => rfl
  | value v =>
      cases fs with
      | nil => rfl
      | cons f fs => cases f <;> rfl

/-- **One step accounts** for at most one input. -/
theorem step_accounts {m m' : Machine} {q : List Reply} (hq : m.state.supply = .script q)
    (h : m.step = .next m') :
    ∃ rs : List Reading,
      (m.asks?.map fun x => (x, m'.state.table.get? x)).toList = rs.map Reading.binding ∧
      Accounts q rs m.event?.toList m.state m'.state := by
  cases ha : m.asks? with
  | none =>
      have hs := state_of_quiet h ha
      refine ⟨[], rfl, ?_⟩
      refine ⟨fun _ h => absurd h (Nat.not_lt_zero _), ?_, ?_, ?_, prompt?_of_quiet ha⟩
      · rw [hs]; exact hq
      · rw [hs]; exact (String.append_empty ..).symm
      · rw [step_output h, Event.onto_eq]
  | some x =>
      obtain ⟨focus, fs, t, ⟨out, err⟩, supply⟩ := m
      cases asks?_eq_some ha
      cases hq
      rw [step_input] at h
      cases h
      refine ⟨[.next x q], ?_, ?_⟩
      · rw [Option.map_some, Table.get?_assign, if_pos rfl]
        rfl
      · rw [event?_input]
        exact .next x q rfl rfl (Event.onto_eq ..)

/-- **A run accounts** for all its inputs, however it ends. -/
theorem run_accounts {fuel : Nat} {m : Machine} {q : List Reply}
    (hq : m.state.supply = .script q) {o : Outcome} (h : m.run fuel = some o) :
    ∃ rs : List Reading, m.inputs fuel = rs.map Reading.binding ∧
      Accounts q rs (m.trace fuel) m.state o.2 := by
  induction fuel generalizing m q with
  | zero => cases h
  | succ fuel ih =>
      rw [run] at h
      rw [inputs, trace]
      cases hm : m.step with
      | next m₁ =>
          rw [hm] at h
          obtain ⟨rs, hin, hstep⟩ := step_accounts hq hm
          obtain ⟨rs', hin', hrun⟩ := ih hstep.supply h
          exact ⟨rs ++ rs', by rw [List.map_append, ← hin, ← hin'], hstep.trans hrun⟩
      | halt o' =>
          rw [hm] at h
          cases h
          rw [state_of_halt hm]
          exact ⟨[], rfl, .refl hq⟩

/-! ### Replies that no input comes to -/

theorem asks?_of_halt {m : Machine} {o : Outcome} (h : m.step = .halt o) : m.asks? = none := by
  obtain ⟨focus, fs, s⟩ := m
  cases focus with
  | node n => cases h
  | value v => rfl

/-- The machine with more replies behind those that are left. -/
def more (m : Machine) (q extra : List Reply) : Machine :=
  m.beside (.script (q ++ extra)) m.state.console.errors

/-- A step with more replies behind, if it takes none or there is one to take. -/
theorem step_more {m m' : Machine} {q : List Reply} (hq : m.state.supply = .script q)
    (h : m.step = .next m') (hlen : m.asks?.toList.length ≤ q.length) (extra : List Reply) :
    (m.more q extra).step = .next (m'.more (q.drop m.asks?.toList.length) extra) ∧
      (m.more q extra).event? = m.event? := by
  cases ha : m.asks? with
  | none =>
      refine ⟨?_, event?_beside ha ..⟩
      have herr := congrArg (·.console.errors) (state_of_quiet h ha)
      rw [more, step_beside ha, h, more, show m'.state.console.errors = _ from herr]
      rfl
  | some x =>
      obtain ⟨focus, fs, t, ⟨out, err⟩, supply⟩ := m
      cases asks?_eq_some ha
      cases hq
      rw [ha] at hlen
      obtain ⟨a, q, rfl⟩ := List.exists_cons_of_length_pos hlen
      rw [step_input] at h
      cases h
      refine ⟨step_input t out err (a :: (q ++ extra)) x fs, ?_⟩
      rw [event?_input]
      exact event?_input t ⟨out, err⟩ (a :: (q ++ extra)) x fs

/-- **A run does not look at replies that it does not come to.** -/
theorem run_more {fuel : Nat} {m : Machine} {q : List Reply} (hq : m.state.supply = .script q)
    {r : Except Fault Value} {s' : State} (h : m.run fuel = some (r, s'))
    (hlen : (m.inputs fuel).length ≤ q.length) (extra : List Reply) :
    (m.more q extra).run fuel =
        some (r, { s' with supply := .script (q.drop (m.inputs fuel).length ++ extra) }) ∧
      (m.more q extra).inputs fuel = m.inputs fuel ∧
      (m.more q extra).trace fuel = m.trace fuel := by
  induction fuel generalizing m q with
  | zero => cases h
  | succ fuel ih =>
      rw [run] at h
      rw [inputs] at hlen
      rw [run, inputs, inputs, trace, trace]
      cases hm : m.step with
      | next m₁ =>
          rw [hm] at h
          simp only [hm, Option.toList_map, List.length_append, List.length_map] at hlen ⊢
          -- The step takes as many replies as it makes inputs, so enough are left for the rest.
          obtain ⟨rs, hin, hstep⟩ := step_accounts hq hm
          obtain ⟨hmore, hevent⟩ := step_more hq hm (by omega) extra
          have hcount : rs.length = m.asks?.toList.length := by
            simpa only [Option.toList_map, List.length_map] using (congrArg List.length hin).symm
          have hsupply := hstep.supply
          rw [hcount] at hsupply
          have hrest : (m₁.inputs fuel).length ≤ (q.drop m.asks?.toList.length).length := by
            rw [List.length_drop]
            omega
          obtain ⟨hrun, hin', htrace⟩ := ih hsupply h hrest
          have hasks : (m.more q extra).asks? = m.asks? := asks?_beside ..
          simp only [hmore, hasks, hevent, hrun, hin', htrace, List.drop_drop]
          exact ⟨trivial, rfl, trivial⟩
      | halt o =>
          rw [hm] at h
          cases h
          have hs := state_of_halt hm
          rw [more, step_beside (asks?_of_halt hm), hm]
          subst hs
          exact ⟨rfl, rfl, rfl⟩

end Machine

/-! ### The inputs of an evaluation -/

/-- **An evaluation accounts for its inputs**, whether it ends with a value or with a fault, and
whatever its tree is.  The inputs that it makes are readings, one for each reply from the first on,
and end-of-input readings behind the last.  Each binds its name to the integer that its own reply
gives, or to zero if it gives none; the replies that are left, the warnings, the output and the
prompts on it are those of the readings; and a warning is one line, if the name is.  If there are
replies enough, then more of them behind the others change nothing, and are left. -/
theorem inputs_are_accounted (n : Node) {s : State} {q : List Reply} (hq : s.supply = .script q)
    {fuel : Nat} {r : Except Fault Value} {s' : State} (h : evaluate fuel n s = some (r, s')) :
    ∃ rs : List Reading, (Machine.start n s).inputs fuel = rs.map Reading.binding ∧
      Accounts q rs ((Machine.start n s).trace fuel) s s' ∧
      (∀ a ∈ rs, Reply.Gives a.reply a.result) ∧
      (∀ a ∈ rs, OneLine a.name → ∀ e, a.result = .error e → OneLine (e.warning a.name)) ∧
      ∀ extra, rs.length ≤ q.length →
        evaluate fuel n { s with supply := .script (q ++ extra) } =
            some (r, { s' with supply := .script (q.drop rs.length ++ extra) }) ∧
          (Machine.start n { s with supply := .script (q ++ extra) }).inputs fuel =
            (Machine.start n s).inputs fuel ∧
          (Machine.start n { s with supply := .script (q ++ extra) }).trace fuel =
            (Machine.start n s).trace fuel := by
  obtain ⟨rs, hin, hacc⟩ := Machine.run_accounts hq h
  have hlen : ((Machine.start n s).inputs fuel).length = rs.length := by
    rw [hin, List.length_map]
  refine ⟨rs, hin, hacc, fun a _ => Reply.gives_answer a.reply,
    fun a _ hx e he => a.oneLine_warning hx he, fun extra hle => ?_⟩
  have hmore := Machine.run_more hq h (hlen ▸ hle) extra
  rw [hlen] at hmore
  exact hmore

/-- Three inputs in a loop, and a division by zero behind it. -/
def threeInputs : Node :=
  .block [.loop (.binary .less (.var "i") (.number 3))
      [.input "x", .print (.var "x"), .assign "i" (.binary .add (.var "i") (.number 1))],
    .binary .div (.number 1) (.number 0)]

/-- What is typed for them: two lines at once, nothing because the terminal does not open, and a
word that spells no integer. -/
def threeReplies : List Reply := [.line "7 8\n9", .unavailable, .line "no"]

theorem three_inputs_are_accounted :
    ∃ r s' rs, evaluate 80 threeInputs (.start (.script threeReplies)) = some (r, s') ∧
      rs.map Reading.binding = [("x", some (.int 7)), ("x", some (.int 0)), ("x", some (.int 0))] ∧
      Accounts threeReplies rs
        ((Machine.start threeInputs (.start (.script threeReplies))).trace 80)
        (.start (.script threeReplies)) s' ∧
      evaluate 80 threeInputs (.start (.script (threeReplies ++ [.line "5"]))) =
        some (r, { s' with supply := .script [.line "5"] }) := by
  obtain ⟨⟨r, s'⟩, hrun⟩ : ∃ o, evaluate 80 threeInputs (.start (.script threeReplies)) = some o :=
    Option.isSome_iff_exists.mp (by decide +kernel)
  have hin : (Machine.start threeInputs (.start (.script threeReplies))).inputs 80 =
      [("x", some (.int 7)), ("x", some (.int 0)), ("x", some (.int 0))] := by decide +kernel
  obtain ⟨rs, hrs, hacc, -, -, hmore⟩ := inputs_are_accounted threeInputs rfl hrun
  rw [hin] at hrs
  have hlen : rs.length = 3 := by simpa using (congrArg List.length hrs).symm
  have hleft := (hmore [.line "5"] (Nat.le_of_eq hlen)).1
  rw [hlen] at hleft
  exact ⟨r, s', rs, hrun, hrs.symm, hacc, hleft⟩

end Treewalk
