import Treewalk.Proofs.Evaluation.Simulation

/-!
# Evaluation — Texts decide nothing

A run does with a text what it does with any other: it stores it, hands it on and prints it, and
where an integer is called for it takes zero.  So what a text says can be seen in two places only,
in the table and where it is printed.

`Alike` relates things that differ at most in what their texts say: values, tables, trees, events on
the output, and states, which are compared without their output.  The relation is a kinship
(`lawful_alike`), hence two runs that are alike take the same steps.
-/

namespace Treewalk

/-! ### Things that differ in texts only -/

/-- The same integer, or two texts. -/
inductive Value.Alike : Value → Value → Prop where
  | int {n : Int64} : Alike (.int n) (.int n)
  | text {a b : String} : Alike (.text a) (.text b)

/-- The tables bind the same names, to values that are alike. -/
def Table.Alike (t u : Table) : Prop :=
  ∀ x, Option.Rel Value.Alike (t.get? x) (u.get? x)

/-- The trees are the same but for what their texts say. -/
inductive Node.Alike : Node → Node → Prop where
  | block {ss ss' : List Node} : List.Forall₂ Alike ss ss' → Alike (.block ss) (.block ss')
  | assign {x : String} {e e' : Node} : Alike e e' → Alike (.assign x e) (.assign x e')
  | input {x : String} : Alike (.input x) (.input x)
  | text {a b : String} : Alike (.text a) (.text b)
  | print {e e' : Node} : Alike e e' → Alike (.print e) (.print e')
  | branch {c c' : Node} {yes yes' no no' : List Node} : Alike c c' →
      List.Forall₂ Alike yes yes' → List.Forall₂ Alike no no' →
      Alike (.branch c yes no) (.branch c' yes' no')
  | loop {c c' : Node} {body body' : List Node} : Alike c c' → List.Forall₂ Alike body body' →
      Alike (.loop c body) (.loop c' body')
  | binary {op : Operator} {l l' r r' : Node} : Alike l l' → Alike r r' →
      Alike (.binary op l r) (.binary op l' r')
  | number {n : Int64} : Alike (.number n) (.number n)
  | var {x : String} : Alike (.var x) (.var x)

/-- The same prompt, or values on a line that are alike. -/
inductive Event.Alike : Event → Event → Prop where
  | prompt {x : String} : Alike (.prompt x) (.prompt x)
  | print {v w : Value} : v.Alike w → Alike (.print v) (.print w)

/-- The states have tables that are alike, the same warnings and the same supply. -/
structure State.Alike (s t : State) : Prop where
  table : s.table.Alike t.table
  errors : s.console.errors = t.console.errors
  supply : s.supply = t.supply

/-- Values that are alike, or the same fault, in states that are alike. -/
inductive Outcome.Alike : Outcome → Outcome → Prop where
  | ok {v w : Value} {s t : State} : v.Alike w → s.Alike t → Alike (.ok v, s) (.ok w, t)
  | fault {f : Fault} {s t : State} : s.Alike t → Alike (.error f, s) (.error f, t)

/-! ### Runs that are alike -/

theorem Value.Alike.toInt {v w : Value} (h : v.Alike w) : v.toInt = w.toInt := by
  cases h <;> rfl

theorem Table.Alike.read {t u : Table} (h : t.Alike u) (x : String) :
    (t.read x).Alike (u.read x) := by
  have hx := h x
  rw [Table.read, Table.read]
  generalize t.get? x = a, u.get? x = b at hx
  cases hx with
  | none => exact .int
  | some hv => exact hv

theorem Table.Alike.assign {t u : Table} (h : t.Alike u) (x : String) {v w : Value}
    (hv : v.Alike w) : (t.assign x v).Alike (u.assign x w) := by
  intro y
  rw [get?_assign, get?_assign]
  split
  · exact .some hv
  · exact h y

theorem State.Alike.ask {s t : State} (h : s.Alike t) (x : String) :
    (s.ask x).1 = (t.ask x).1 ∧ (s.ask x).2.Alike (t.ask x).2 := by
  obtain ⟨hn, he, hq, -⟩ := State.ask_alike h.errors h.supply x
  refine ⟨hn, ?_, he, hq⟩
  rw [State.ask_table, State.ask_table]
  exact h.table

/-- Two runs of trees that are alike. -/
def Kinship.alike : Kinship where
  node := Node.Alike
  value := Value.Alike
  state := State.Alike

theorem lawful_alike : Kinship.alike.Lawful where
  built h := by
    have hstore : ∀ x, Kinship.alike.Stores x x :=
      fun x _ _ _ _ hs hv => ⟨hs.table.assign x hv, hs.errors, hs.supply⟩
    cases h with
    | block hss => exact .block hss
    | assign he => exact .assign (hstore _) he
    | input => exact .input (fun hs => hs.ask _) (hstore _)
    | text => exact .text .text
    | print he => exact .print he
    | branch hc hyes hno => exact .branch hc hyes hno
    | loop hc hb => exact .loop hc hb
    | binary hl hr => exact .binary hl hr
    | number => exact .number
    | var => exact .var fun hs => hs.table.read _
  int _ := .int
  toInt := Value.Alike.toInt
  print hs _ := ⟨hs.table, hs.errors, hs.supply⟩

/-- Machines that are alike write events that are alike. -/
theorem event?_alike {m m' : Machine} (h : Kinship.alike.Machines m m') :
    Option.Rel Event.Alike m.event? m'.event? := by
  obtain ⟨focus, fs, s⟩ := m
  obtain ⟨focus', fs', t⟩ := m'
  obtain ⟨hfocus, hf, hs⟩ := h
  cases hfocus with
  | node hn =>
      cases hn with
      | @input x =>
          simp only [Machine.event?]
          rw [show s.supply = t.supply from hs.supply]
          split
          · exact .some .prompt
          · exact .none
      | _ => exact .none
  | value hv =>
      cases hf with
      | nil => exact .none
      | cons hff _ =>
          cases hff with
          | print => exact .some (.print hv)
          | _ => exact .none

/-- **Texts decide nothing.**  Let two trees differ at most in what their texts say, and likewise
two tables.  Begun with the same console and the same supply, both runs end after the same number of
steps or not at all: with the same fault or with values that are alike, and in states that are
alike.  Each writes its own events behind the same output, and these are alike one by one. -/
theorem text_is_opaque {m n : Node} (hmn : m.Alike n) {s t : State}
    (htable : s.table.Alike t.table) (hconsole : s.console = t.console)
    (hsupply : s.supply = t.supply) (fuel : Nat) :
    Option.Rel Outcome.Alike (evaluate fuel m s) (evaluate fuel n t) ∧
      List.Forall₂ Event.Alike ((Machine.start m s).trace fuel)
        ((Machine.start n t).trace fuel) ∧
      (∀ o, evaluate fuel m s = some o →
        o.2.console.output = Event.onto s.console.output ((Machine.start m s).trace fuel)) ∧
      ∀ o, evaluate fuel n t = some o →
        o.2.console.output = Event.onto s.console.output ((Machine.start n t).trace fuel) := by
  have hs : s.Alike t := ⟨htable, congrArg _ hconsole, hsupply⟩
  have hstart : Kinship.alike.Machines (.start m s) (.start n t) := ⟨.node hmn, .nil, hs⟩
  refine ⟨?_, lawful_alike.trace event?_alike fuel hstart, fun o => Machine.run_output, ?_⟩
  · have hrun := lawful_alike.evaluate fuel hmn hs
    generalize evaluate fuel m s = a, evaluate fuel n t = a' at hrun
    cases hrun with
    | none => exact .none
    | @some o o' ho =>
        obtain ⟨r, s'⟩ := o
        obtain ⟨r', t'⟩ := o'
        obtain ⟨hr, hs'⟩ := ho
        cases hr with
        | ok hv => exact .some (.ok hv hs')
        | error => exact .some (.fault hs')
  · rw [hconsole]
    exact fun o => Machine.run_output

/-- A text that is a condition, an operand and a divisor brings two runs to the same fault; only the
line that prints it differs. -/
theorem two_texts_divide_alike :
    ∃ s t : State,
      evaluate 40 (.block [.branch (.text "on") [.assign "s" (.number 1)] [.print (.var "s")],
          .print (.binary .add (.var "s") (.number 7)), .binary .div (.number 1) (.text "on")])
        ((State.start (.script [])).assign "s" (.text "left")) =
          some (.error .divisionByZero, s) ∧
      evaluate 40 (.block [.branch (.text "") [.assign "s" (.number 1)] [.print (.var "s")],
          .print (.binary .add (.var "s") (.number 7)), .binary .div (.number 1) (.text "5")])
        ((State.start (.script [])).assign "s" (.text "right")) =
          some (.error .divisionByZero, t) ∧
      s.Alike t ∧ s.console.output = "left\n7\n" ∧ t.console.output = "right\n7\n" := by
  let tree (a b : String) : Node :=
    .block [.branch (.text a) [.assign "s" (.number 1)] [.print (.var "s")],
      .print (.binary .add (.var "s") (.number 7)), .binary .div (.number 1) (.text b)]
  have htree : (tree "on" "on").Alike (tree "" "5") :=
    .block (.cons (.branch .text (.cons (.assign .number) .nil) (.cons (.print .var) .nil))
      (.cons (.print (.binary .var .number)) (.cons (.binary .number .text) .nil)))
  have htable : (Table.empty.assign "s" (.text "left")).Alike
      (Table.empty.assign "s" (.text "right")) :=
    Table.Alike.assign (fun _ => .none) "s" .text
  obtain ⟨hrun, -⟩ := text_is_opaque htree
    (s := (State.start (.script [])).assign "s" (.text "left"))
    (t := (State.start (.script [])).assign "s" (.text "right")) htable rfl rfl 40
  obtain ⟨s, hs⟩ : ∃ s, evaluate 40 (tree "on" "on")
      ((State.start (.script [])).assign "s" (.text "left")) =
        some (.error .divisionByZero, s) ∧ s.console.output = "left\n7\n" :=
    ⟨_, rfl, by decide +kernel⟩
  obtain ⟨t, ht⟩ : ∃ t, evaluate 40 (tree "" "5")
      ((State.start (.script [])).assign "s" (.text "right")) =
        some (.error .divisionByZero, t) ∧ t.console.output = "right\n7\n" :=
    ⟨_, rfl, by decide +kernel⟩
  rw [hs.1, ht.1] at hrun
  cases hrun with
  | some ho =>
      cases ho with
      | fault h => exact ⟨s, t, hs.1, ht.1, h, hs.2, ht.2⟩

end Treewalk
