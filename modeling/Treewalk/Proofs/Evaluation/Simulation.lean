import Mathlib.Data.List.Forall2
import Treewalk.Proofs.Evaluation.Traces
import Treewalk.Proofs.Tree.Parts

/-!
# Evaluation — Two runs side by side

A `Kinship` relates the nodes, the values and the states of two runs.  It is lawful if kin nodes are
built in the same way of kin parts, kin values count as the same integer, and what a node does to
kin states leaves them kin (`Kinship.Built`, `Kinship.Lawful`).  Two machines under a lawful kinship
then take their steps together:

* `Lawful.step`: a step of kin machines leads to kin machines, or both halt with kin outcomes.
* `Lawful.run`, `Lawful.evaluate`: so at every number of steps both runs are under way, or both have
  ended with kin outcomes.
* `Lawful.reaches`: every machine that the first run comes to has its kin in the second.
* `Lawful.trace`: both runs write kin events, if kin machines do.

A run may also be set beside itself.  A property of states that every step keeps is a kinship of
states with themselves (`Kinship.keeping`), so invariants of single runs need no second argument.
-/

namespace Treewalk

/-! ### Inputs in two states -/

/-- An input does not touch the table. -/
theorem State.ask_table (s : State) (x : String) : (s.ask x).2.table = s.table := by
  have h := s.asks_ask x
  generalize (s.ask x).1 = n, (s.ask x).2 = s' at h
  cases h <;> rfl

/-- The same supply brings the same integer and the same warning, and the same text on the
output. -/
theorem State.ask_alike {s t : State} (he : s.console.errors = t.console.errors)
    (hq : s.supply = t.supply) (x : String) :
    (s.ask x).1 = (t.ask x).1 ∧ (s.ask x).2.console.errors = (t.ask x).2.console.errors ∧
      (s.ask x).2.supply = (t.ask x).2.supply ∧
      ∃ p, (s.ask x).2.console.output = s.console.output ++ p ∧
        (t.ask x).2.console.output = t.console.output ++ p := by
  obtain ⟨table, ⟨out, err⟩, q⟩ := s
  obtain ⟨table', ⟨out', _⟩, _⟩ := t
  cases he
  cases hq
  have h := State.asks_ask ⟨table, ⟨out, err⟩, q⟩ x
  generalize (State.ask ⟨table, ⟨out, err⟩, q⟩ x).1 = n,
    (State.ask ⟨table, ⟨out, err⟩, q⟩ x).2 = s' at h
  cases h with
  | read ho hg =>
      rw [(State.Asks.read ho hg).ask]
      exact ⟨rfl, rfl, rfl, _, rfl, rfl⟩
  | invalid ho hg =>
      rw [(State.Asks.invalid ho hg).ask]
      exact ⟨rfl, rfl, rfl, _, rfl, rfl⟩
  | shut ho =>
      rw [(State.Asks.shut ho).ask]
      exact ⟨rfl, rfl, rfl, "", by simp, by simp⟩

/-- Relations between the nodes, the values and the states of two runs. -/
structure Kinship where
  node : Node → Node → Prop
  value : Value → Value → Prop
  state : State → State → Prop

namespace Kinship

variable (K : Kinship)

/-! ### What the laws are about -/

/-- Storing kin values, under `x` here and under `y` there, leaves kin states kin. -/
def Stores (x y : String) : Prop :=
  ∀ {s t : State} {v w : Value}, K.state s t → K.value v w → K.state (s.assign x v) (t.assign y w)

/-- In kin states, `x` here and `y` there read as kin values. -/
def Reads (x y : String) : Prop :=
  ∀ {s t : State}, K.state s t → K.value (s.table.read x) (t.table.read y)

/-- In kin states, an input for `x` here and for `y` there brings the same integer and leaves the
states kin, before it is stored. -/
def Asks (x y : String) : Prop :=
  ∀ {s t : State}, K.state s t →
    (s.ask x).1 = (t.ask y).1 ∧ K.state (s.ask x).2 (t.ask y).2

/-- The nodes are built in the same way, of kin parts, and treat kin states alike. -/
inductive Built : Node → Node → Prop where
  | block {ss ss' : List Node} : List.Forall₂ K.node ss ss' → Built (.block ss) (.block ss')
  | assign {x y : String} {e e' : Node} : K.Stores x y → K.node e e' →
      Built (.assign x e) (.assign y e')
  | input {x y : String} : K.Asks x y → K.Stores x y → Built (.input x) (.input y)
  | text {a b : String} : K.value (.text a) (.text b) → Built (.text a) (.text b)
  | print {e e' : Node} : K.node e e' → Built (.print e) (.print e')
  | branch {c c' : Node} {yes yes' no no' : List Node} : K.node c c' →
      List.Forall₂ K.node yes yes' → List.Forall₂ K.node no no' →
      Built (.branch c yes no) (.branch c' yes' no')
  | loop {c c' : Node} {body body' : List Node} : K.node c c' → List.Forall₂ K.node body body' →
      Built (.loop c body) (.loop c' body')
  | binary {op : Operator} {l l' r r' : Node} : K.node l l' → K.node r r' →
      Built (.binary op l r) (.binary op l' r')
  | number {n : Int64} : Built (.number n) (.number n)
  | var {x y : String} : K.Reads x y → Built (.var x) (.var y)

/-- Kin nodes, values and states behave alike. -/
structure Lawful : Prop where
  built {m n : Node} : K.node m n → K.Built m n
  int (n : Int64) : K.value (.int n) (.int n)
  toInt {v w : Value} : K.value v w → v.toInt = w.toInt
  print {s t : State} {v w : Value} : K.state s t → K.value v w →
    K.state { s with console := s.console.printLine v.display }
      { t with console := t.console.printLine w.display }

/-! ### Kin machines -/

/-- Constructs that wait for the same, with kin statements ahead of them. -/
inductive Controls : Control → Control → Prop where
  | sequence {rest rest' : List Node} : List.Forall₂ K.node rest rest' →
      Controls (.sequence rest) (.sequence rest')
  | branch {yes yes' no no' : List Node} : List.Forall₂ K.node yes yes' →
      List.Forall₂ K.node no no' → Controls (.branch yes no) (.branch yes' no')
  | test {c c' : Node} {body body' : List Node} {k : UInt64} : K.node c c' →
      List.Forall₂ K.node body body' → Controls (.test c body k) (.test c' body' k)
  | pass {c c' : Node} {body body' rest rest' : List Node} {k : UInt64} : K.node c c' →
      List.Forall₂ K.node body body' → List.Forall₂ K.node rest rest' →
      Controls (.pass c body rest k) (.pass c' body' rest' k)

/-- Constructs that ask for kin nodes next, or have both ended. -/
inductive Requests : Request → Request → Prop where
  | ask {n n' : Node} {c c' : Control} : K.node n n' → K.Controls c c' →
      Requests (.ask n c) (.ask n' c')
  | finished {k : UInt64} : Requests (.finished k) (.finished k)

/-- Frames that do the same with kin values. -/
inductive Frames : Frame → Frame → Prop where
  | store {x y : String} : K.Stores x y → Frames (.store x) (.store y)
  | print : Frames .print .print
  | left {op : Operator} {r r' : Node} : K.node r r' → Frames (.left op r) (.left op r')
  | right {op : Operator} {a : Int64} : Frames (.right op a) (.right op a)
  | control {c c' : Control} : K.Controls c c' → Frames (.control c) (.control c')

/-- Kin nodes or kin values. -/
inductive Focuses : Focus → Focus → Prop where
  | node {n n' : Node} : K.node n n' → Focuses (.node n) (.node n')
  | value {v w : Value} : K.value v w → Focuses (.value v) (.value w)

/-- Machines that look at kin things, in kin frames and kin states. -/
structure Machines (m m' : Machine) : Prop where
  focus : K.Focuses m.focus m'.focus
  frames : List.Forall₂ K.Frames m.frames m'.frames
  state : K.state m.state m'.state

/-- Kin values, or the same fault. -/
inductive Results : Except Fault Value → Except Fault Value → Prop where
  | ok {v w : Value} : K.value v w → Results (.ok v) (.ok w)
  | error {f : Fault} : Results (.error f) (.error f)

/-- Kin results in kin states. -/
structure Outcomes (o o' : Outcome) : Prop where
  result : K.Results o.1 o'.1
  state : K.state o.2 o'.2

/-- Both steps lead to kin machines, or both halt with kin outcomes. -/
inductive Steps : Machine.Step → Machine.Step → Prop where
  | next {m m' : Machine} : K.Machines m m' → Steps (.next m) (.next m')
  | halt {o o' : Outcome} : K.Outcomes o o' → Steps (.halt o) (.halt o')

variable {K}

/-- Results are the same where kin values are. -/
theorem Results.eq (hK : ∀ {v w : Value}, K.value v w → v = w) {r r' : Except Fault Value}
    (h : K.Results r r') : r = r' := by
  cases h with
  | ok hv => rw [hK hv]
  | error => rfl

/-! ### Constructs -/

theorem Requests.sequence {ss ss' : List Node} (h : List.Forall₂ K.node ss ss') :
    K.Requests (.sequence ss) (.sequence ss') := by
  cases h with
  | nil => exact .finished
  | cons hn hss => exact .ask hn (.sequence hss)

theorem Requests.pass {c c' : Node} {body body' : List Node} (k : UInt64) (hc : K.node c c')
    (hb : List.Forall₂ K.node body body') {rest rest' : List Node}
    (h : List.Forall₂ K.node rest rest') :
    K.Requests (.pass c body k rest) (.pass c' body' k rest') := by
  cases h with
  | nil => exact .ask hc (.test hc hb)
  | cons hn hss => exact .ask hn (.pass hc hb hss)

theorem Machines.serve {q q' : Request} (hq : K.Requests q q') (h : K.Lawful)
    {fs fs' : List Frame} (hf : List.Forall₂ K.Frames fs fs') {s t : State} (hs : K.state s t) :
    K.Machines (Machine.serve q fs s) (Machine.serve q' fs' t) := by
  cases hq with
  | ask hn hc => exact ⟨.node hn, .cons (.control hc) hf, hs⟩
  | finished => exact ⟨.value (h.int 0), hf, hs⟩

namespace Lawful

variable (h : K.Lawful)
include h

theorem holds {v w : Value} (hv : K.value v w) : v.holds = w.holds := by
  rw [Value.holds, Value.holds, h.toInt hv]

theorem resume {c c' : Control} (hc : K.Controls c c') {v w : Value} (hv : K.value v w) :
    K.Requests (c.resume v) (c'.resume w) := by
  cases hc with
  | sequence hr => exact .sequence hr
  | branch hy hn =>
      rw [Control.resume, Control.resume, h.holds hv]
      split
      · exact .sequence hy
      · exact .sequence hn
  | test hn hb =>
      rw [Control.resume, Control.resume, h.holds hv]
      split
      · exact .pass _ hn hb hb
      · exact .finished
  | pass hn hb hr => exact .pass _ hn hb hr

/-! ### One step -/

theorem enter {n n' : Node} (hn : K.node n n') {fs fs' : List Frame}
    (hf : List.Forall₂ K.Frames fs fs') {s t : State} (hs : K.state s t) :
    K.Machines (Machine.enter n fs s) (Machine.enter n' fs' t) := by
  cases h.built hn with
  | block hss => exact .serve (.sequence hss) h hf hs
  | assign hx he => exact ⟨.node he, .cons (.store hx) hf, hs⟩
  | @input x y ha hx =>
      obtain ⟨hn, hst⟩ := ha hs
      have hv : K.value (.int (s.ask x).1) (.int (t.ask y).1) := hn ▸ h.int _
      exact ⟨.value hv, hf, hx hst hv⟩
  | text hv => exact ⟨.value hv, hf, hs⟩
  | print he => exact ⟨.node he, .cons .print hf, hs⟩
  | branch hc hyes hno => exact .serve (.ask hc (.branch hyes hno)) h hf hs
  | loop hc hb => exact .serve (.ask hc (.test hc hb)) h hf hs
  | binary hl hr => exact ⟨.node hl, .cons (.left hr) hf, hs⟩
  | number => exact ⟨.value (h.int _), hf, hs⟩
  | var hx => exact ⟨.value (hx hs), hf, hs⟩

theorem hand {v w : Value} (hv : K.value v w) {f f' : Frame} (hff : K.Frames f f')
    {fs fs' : List Frame} (hf : List.Forall₂ K.Frames fs fs') {s t : State} (hs : K.state s t) :
    K.Steps (Machine.hand v f fs s) (Machine.hand w f' fs' t) := by
  cases hff with
  | store hx => exact .next ⟨.value hv, hf, hx hs hv⟩
  | print => exact .next ⟨.value (h.int 0), hf, h.print hs hv⟩
  | left hr =>
      rw [Machine.hand, Machine.hand, h.toInt hv]
      exact .next ⟨.node hr, .cons .right hf, hs⟩
  | right =>
      rw [Machine.hand, Machine.hand, h.toInt hv]
      split
      · exact .next ⟨.value (h.int _), hf, hs⟩
      · exact .halt ⟨.error, hs⟩
  | control hc => exact .next (.serve (h.resume hc hv) h hf hs)

/-- **Kin machines take their steps together.** -/
theorem step {m m' : Machine} (hm : K.Machines m m') : K.Steps m.step m'.step := by
  obtain ⟨focus, fs, s⟩ := m
  obtain ⟨focus', fs', t⟩ := m'
  obtain ⟨hfocus, hf, hs⟩ := hm
  cases hfocus with
  | node hn => exact .next (h.enter hn hf hs)
  | value hv =>
      cases hf with
      | nil => exact .halt ⟨.ok hv, hs⟩
      | cons hff hf => exact h.hand hv hff hf hs

/-! ### Whole runs -/

theorem run (fuel : Nat) {m m' : Machine} (hm : K.Machines m m') :
    Option.Rel K.Outcomes (m.run fuel) (m'.run fuel) := by
  induction fuel generalizing m m' with
  | zero => exact .none
  | succ fuel ih =>
      have hs := h.step hm
      rw [Machine.run, Machine.run]
      generalize m.step = a, m'.step = a' at hs
      cases hs with
      | next hm => exact ih hm
      | halt ho => exact .some ho

/-- **Kin runs end together**, with kin outcomes, or neither has ended. -/
theorem evaluate (fuel : Nat) {n n' : Node} (hn : K.node n n') {s t : State} (hs : K.state s t) :
    Option.Rel K.Outcomes (evaluate fuel n s) (evaluate fuel n' t) :=
  h.run fuel ⟨.node hn, .nil, hs⟩

/-- Every machine that a run comes to has its kin in a kin run. -/
theorem reaches {m m' n : Machine} (hm : K.Machines m m') (hr : m.Reaches n) :
    ∃ n', m'.Reaches n' ∧ K.Machines n n' := by
  induction hr generalizing m' with
  | refl => exact ⟨m', .refl, hm⟩
  | next hs _ ih =>
      have hstep := h.step hm
      rw [hs] at hstep
      generalize ha : m'.step = a at hstep
      cases hstep with
      | next hm₁ =>
          obtain ⟨n', hr, hn⟩ := ih hm₁
          exact ⟨n', .next ha hr, hn⟩

/-- Runs write related events if their steps do. -/
theorem trace {E : Event → Event → Prop}
    (hE : ∀ {m m' : Machine}, K.Machines m m' → Option.Rel E m.event? m'.event?) (fuel : Nat)
    {m m' : Machine} (hm : K.Machines m m') :
    List.Forall₂ E (m.trace fuel) (m'.trace fuel) := by
  induction fuel generalizing m m' with
  | zero => exact .nil
  | succ fuel ih =>
      have hs := h.step hm
      have he := hE hm
      rw [Machine.trace, Machine.trace]
      generalize m.step = a, m'.step = a' at hs
      generalize m.event? = e, m'.event? = e' at he
      cases hs with
      | next hm =>
          cases he with
          | none => exact ih hm
          | some he => exact .cons he (ih hm)
      | halt _ => exact .nil

end Lawful

/-! ### A run beside itself -/

/-- A node is built as itself, of parts that are kin to themselves, if it treats kin states
alike. -/
theorem Built.self {n : Node} (hc : ∀ c ∈ n.children, K.node c c)
    (htext : ∀ a, K.value (.text a) (.text a))
    (hstore : ∀ x, n.target? = some x → K.Stores x x)
    (hask : ∀ x, n = .input x → K.Asks x x)
    (hread : ∀ x, n = .var x → K.Reads x x) : K.Built n n := by
  cases n with
  | block ss => exact .block (List.forall₂_same.mpr hc)
  | assign x e => exact .assign (hstore x rfl) (hc e List.mem_cons_self)
  | input x => exact .input (hask x rfl) (hstore x rfl)
  | text a => exact .text (htext a)
  | print e => exact .print (hc e List.mem_cons_self)
  | branch c yes no =>
      refine .branch (hc c List.mem_cons_self) (List.forall₂_same.mpr fun m hm => ?_)
        (List.forall₂_same.mpr fun m hm => ?_)
      · exact hc m (List.mem_cons_of_mem _ (List.mem_append_left _ hm))
      · exact hc m (List.mem_cons_of_mem _ (List.mem_append_right _ hm))
  | loop c body =>
      exact .loop (hc c List.mem_cons_self)
        (List.forall₂_same.mpr fun m hm => hc m (List.mem_cons_of_mem _ hm))
  | binary op l r =>
      exact .binary (hc l List.mem_cons_self) (hc r (List.mem_cons_of_mem _ List.mem_cons_self))
  | number k => exact .number
  | var x => exact .var (hread x rfl)

/-- A run beside itself, at nodes that satisfy `N` and in states that satisfy `P`. -/
def keeping (N : Node → Prop) (P : State → Prop) : Kinship where
  node m n := m = n ∧ N m
  value := Eq
  state s t := s = t ∧ P s

theorem lawful_keeping {N : Node → Prop} {P : State → Prop}
    (hchild : ∀ {n c : Node}, N n → c ∈ n.children → N c)
    (hstore : ∀ {n : Node} {x : String}, N n → n.target? = some x →
      ∀ {s : State} (v : Value), P s → P (s.assign x v))
    (hask : ∀ {x : String}, N (.input x) → ∀ {s : State}, P s → P (s.ask x).2)
    (hprint : ∀ {s : State} (v : Value), P s →
      P { s with console := s.console.printLine v.display }) :
    (keeping N P).Lawful where
  built := by
    rintro n _ ⟨rfl, hn⟩
    refine .self (fun c hc => ⟨rfl, hchild hn hc⟩) (fun _ => rfl) (fun x hx => ?_)
      (fun x hx => ?_) (fun x _ => ?_)
    · rintro s _ v _ ⟨rfl, hs⟩ rfl
      exact ⟨rfl, hstore hn hx v hs⟩
    · rintro s _ ⟨rfl, hs⟩
      subst hx
      exact ⟨rfl, rfl, hask hn hs⟩
    · rintro s _ ⟨rfl, -⟩
      rfl
  int _ := rfl
  toInt := congrArg _
  print := by
    rintro s _ v _ ⟨rfl, hs⟩ rfl
    exact ⟨rfl, hprint v hs⟩

/-- Every machine that a run comes to is its own kin. -/
theorem Lawful.machines_self {N : Node → Prop} {P : State → Prop} (h : (keeping N P).Lawful)
    {n : Node} (hn : N n) {s : State} (hs : P s) {m : Machine}
    (hr : (Machine.start n s).Reaches m) : ∃ m', (keeping N P).Machines m m' := by
  have hstart : (keeping N P).Machines (.start n s) (.start n s) :=
    ⟨.node ⟨rfl, hn⟩, .nil, rfl, hs⟩
  obtain ⟨m', -, hm⟩ := h.reaches hstart hr
  exact ⟨m', hm⟩

/-- What is kept holds in every state that a run comes to. -/
theorem Lawful.keeps {N : Node → Prop} {P : State → Prop} (h : (keeping N P).Lawful) {n : Node}
    (hn : N n) {s : State} (hs : P s) {m : Machine} (hr : (Machine.start n s).Reaches m) :
    P m.state := by
  obtain ⟨m', hm⟩ := h.machines_self hn hs hr
  exact hm.state.2

/-- What is kept holds at every node that a run comes to. -/
theorem Lawful.keeps_node {N : Node → Prop} {P : State → Prop} (h : (keeping N P).Lawful)
    {n : Node} (hn : N n) {s : State} (hs : P s) {c : Node} {fs : List Frame} {t : State}
    (hr : (Machine.start n s).Reaches ⟨.node c, fs, t⟩) : N c := by
  obtain ⟨m', hm⟩ := h.machines_self hn hs hr
  obtain ⟨hfocus, -, -⟩ := hm
  generalize hm' : m'.focus = focus at hfocus
  cases hfocus with
  | node hc => exact hc.2

end Kinship

end Treewalk
