import Treewalk.Proofs.Evaluation.Agreement
import Treewalk.Proofs.Evaluation.Inputs
import Treewalk.Proofs.Program.Diagnostics
import Treewalk.Program.Command

/-!
# Program — Reports

What a run of the whole program does to its exit code and its two streams, for programs that make no
input and end.

* `World.Reports`: the rules, one for each way in which a run can end.
* `Report.ofRun_unique`: how many steps a run may use does not change what it reports.
* `World.Reports.code_iff`: the exit code tells which of the rules it was.
* `run_is_reported`: all of it, for every world, and for each way to call for a run.
-/

namespace Treewalk

/-! ### Runs that make no input -/

/-- The evaluation of the tree ends, and makes no input on its way. -/
def Quiet (root : Node) (s : State) : Prop :=
  ∃ fuel o, evaluate fuel root s = some o ∧ (Machine.start root s).inputs fuel = []

/-- Without a prompt, all that is written are values. -/
theorem Event.exists_prints {es : List Event} (h : es.filterMap prompt? = []) :
    ∃ vs : List Value, es = vs.map print := by
  induction es with
  | nil => exact ⟨[], rfl⟩
  | cons e es ih =>
      cases e with
      | prompt x => cases h
      | print v =>
          obtain ⟨vs, rfl⟩ := ih h
          exact ⟨v :: vs, rfl⟩

/-- A run that makes no input leaves no warning and writes no prompt. -/
theorem Machine.run_quiet {fuel : Nat} {m : Machine} {o : Outcome} (h : m.run fuel = some o)
    (hin : m.inputs fuel = []) :
    o.2.console.errors = m.state.console.errors ∧
      (m.trace fuel).filterMap Event.prompt? = [] := by
  induction fuel generalizing m with
  | zero => cases h
  | succ fuel ih =>
      rw [run] at h
      rw [inputs] at hin
      rw [trace]
      cases hm : m.step with
      | next m₁ =>
          rw [hm] at h
          simp only [hm, List.append_eq_nil_iff, Option.toList_eq_nil_iff,
            Option.map_eq_none_iff] at hin
          obtain ⟨ha, hin⟩ := hin
          obtain ⟨herr, hprompt⟩ := ih h hin
          have hsame := congrArg (·.console.errors) (state_of_quiet hm ha)
          refine ⟨herr.trans hsame, ?_⟩
          rw [List.filterMap_append, prompt?_of_quiet ha, hprompt, List.append_nil]
      | halt o' =>
          rw [hm] at h
          cases h
          rw [state_of_halt hm]
          exact ⟨rfl, rfl⟩

/-! ### Loading -/

/-- What a program at this path is called. -/
def Script.title : Option String → String
  | none | some "-" => standardInput
  | some path => path

namespace World

/-- What reading a path gives: the standard input is read, if it is `-` or none. -/
def bytes (w : World) : Option String → Except Failure (List UInt8)
  | none | some "-" => w.input
  | some path => w.file path

/-- The text can be had at the path. -/
def Holds (w : World) (path : Option String) (text : String) : Prop :=
  w.bytes path = .ok (Bytes.encode text)

theorem load_eq (w : World) (path : Option String) :
    w.load path = Script.ofReading (Script.title path) (w.bytes path) := by
  cases path with
  | none => rfl
  | some path =>
      by_cases h : path = "-"
      · subst h
        rfl
      · simp [load, bytes, Script.title]

theorem Holds.load {w : World} {path : Option String} {text : String} (h : w.Holds path text) :
    w.load path = .ok ⟨Script.title path, text⟩ := by
  rw [load_eq, h]
  simp only [Script.ofReading, Script.ofBytes, Bytes.decode_eq_ok_iff.mpr rfl]

theorem Holds.unique {w : World} {path : Option String} {text text' : String}
    (h : w.Holds path text) (h' : w.Holds path text') : text = text' := by
  have := h.load.symm.trans h'.load
  cases this
  rfl

end World

/-! ### The rules -/

/-- The values, each on a line. -/
def Value.lines (vs : List Value) : String := String.join (vs.map fun v => v.display ++ "\n")

namespace World

/-- The state that a program begins in. -/
def start (w : World) : State := .start (.device w.terminal)

/-- `w.Reports path report`: the program at the path does what the report says. -/
inductive Reports (w : World) (path : Option String) : Report → Prop where
  /-- There are no bytes at the path. -/
  | unreadable {why : Failure} : w.bytes path = .error why →
      Reports w path
        ⟨1, "", "error: cannot read `" ++ Script.title path ++ "`: " ++ why.message ++ "\n"⟩
  /-- The bytes are no text. -/
  | notText {bytes : List UInt8} : w.bytes path = .ok bytes →
      (∀ text, Bytes.encode text ≠ bytes) →
      Reports w path
        ⟨1, "", "error: cannot read `" ++ Script.title path ++ "`: " ++ Failure.notText.message ++
          "\n"⟩
  /-- The text is no program.  Nothing of it is evaluated. -/
  | refused {text : String} {d : Diagnostic} : w.Holds path text →
      Script.tree ⟨Script.title path, text⟩ = .error d →
      Reports w path ⟨65, "", d.render (some ⟨Script.title path, text⟩) ++ "\n"⟩
  /-- The program prints some values, and a fault ends it. -/
  | faulty {text : String} {root : Node} {fuel : Nat} {f : Fault} {s : State} {vs : List Value} :
      w.Holds path text → Script.tree ⟨Script.title path, text⟩ = .ok root →
      evaluate fuel root w.start = some (.error f, s) →
      (Machine.start root w.start).trace fuel = vs.map .print →
      Reports w path ⟨70, Value.lines vs, "runtime error: " ++ f.message ++ "\n"⟩
  /-- The program prints some values. -/
  | done {text : String} {root : Node} {fuel : Nat} {v : Value} {s : State} {vs : List Value} :
      w.Holds path text → Script.tree ⟨Script.title path, text⟩ = .ok root →
      evaluate fuel root w.start = some (.ok v, s) →
      (Machine.start root w.start).trace fuel = vs.map .print →
      Reports w path ⟨0, Value.lines vs, ""⟩

/-- There is no text at the path. -/
def Unreadable (w : World) (path : Option String) : Prop := ∀ text, ¬ w.Holds path text

/-- The text at the path is no program. -/
def Refuses (w : World) (path : Option String) : Prop :=
  ∃ text d, w.Holds path text ∧ Script.tree ⟨Script.title path, text⟩ = .error d

/-- The program at the path has a tree that evaluates to the result. -/
def Ends (w : World) (path : Option String) (r : Except Fault Value) : Prop :=
  ∃ text root fuel s, w.Holds path text ∧ Script.tree ⟨Script.title path, text⟩ = .ok root ∧
    evaluate fuel root w.start = some (r, s)

/-- A fault ends the program at the path. -/
def Faults (w : World) (path : Option String) : Prop := ∃ f, w.Ends path (.error f)

section Exclusion

variable {w : World} {path : Option String}

theorem Unreadable.not_refuses (h : w.Unreadable path) : ¬ w.Refuses path :=
  fun ⟨text, _, hh, _⟩ => h text hh

theorem Unreadable.not_ends (h : w.Unreadable path) (r : Except Fault Value) : ¬ w.Ends path r :=
  fun ⟨text, _, _, _, hh, _⟩ => h text hh

theorem Refuses.not_ends (h : w.Refuses path) (r : Except Fault Value) : ¬ w.Ends path r := by
  rintro ⟨text, root, fuel, s, hh, htree, -⟩
  obtain ⟨text', d, hh', htree'⟩ := h
  cases hh.unique hh'
  rw [htree] at htree'
  cases htree'

theorem Ends.unique {r r' : Except Fault Value} (h : w.Ends path r) (h' : w.Ends path r') :
    r = r' := by
  obtain ⟨text, root, fuel, s, hh, htree, hrun⟩ := h
  obtain ⟨text', root', fuel', s', hh', htree', hrun'⟩ := h'
  cases hh.unique hh'
  rw [htree] at htree'
  cases htree'
  exact (Prod.mk.inj (Machine.Halts.unique ⟨fuel, hrun⟩ ⟨fuel', hrun'⟩)).1

/-- **The exit code tells how the program has ended.** -/
theorem Reports.code_iff {report : Report} (h : w.Reports path report) :
    (report.code = 1 ↔ w.Unreadable path) ∧ (report.code = 65 ↔ w.Refuses path) ∧
      (report.code = 70 ↔ w.Faults path) ∧
      (report.code = 0 ↔ ¬ w.Unreadable path ∧ ¬ w.Refuses path ∧ ¬ w.Faults path) := by
  have unread : w.Unreadable path → ¬ w.Refuses path ∧ ¬ w.Faults path :=
    fun hu => ⟨hu.not_refuses, fun ⟨f, hf⟩ => hu.not_ends _ hf⟩
  cases h with
  | unreadable hb =>
      have hu : w.Unreadable path := fun text hh => by rw [Holds, hb] at hh; cases hh
      simp [hu, unread hu]
  | notText hb hno =>
      have hu : w.Unreadable path := fun text hh => by
        rw [Holds, hb] at hh
        cases hh
        exact hno text rfl
      simp [hu, unread hu]
  | @refused text d hh htree =>
      have hr : w.Refuses path := ⟨text, d, hh, htree⟩
      have hu : ¬ w.Unreadable path := fun hu => hu text hh
      have hf : ¬ w.Faults path := fun ⟨f, hf⟩ => hr.not_ends _ hf
      simp [hu, hr, hf]
  | @faulty text root fuel f s vs hh htree hrun htrace =>
      have he : w.Ends path (.error f) := ⟨text, root, fuel, s, hh, htree, hrun⟩
      have hf : w.Faults path := ⟨f, he⟩
      have hu : ¬ w.Unreadable path := fun hu => hu text hh
      have hr : ¬ w.Refuses path := fun hr => hr.not_ends _ he
      simp [hu, hr, hf]
  | @done text root fuel v s vs hh htree hrun htrace =>
      have he : w.Ends path (.ok v) := ⟨text, root, fuel, s, hh, htree, hrun⟩
      have hf : ¬ w.Faults path := fun ⟨f, hf⟩ => by cases he.unique hf
      have hu : ¬ w.Unreadable path := fun hu => hu text hh
      have hr : ¬ w.Refuses path := fun hr => hr.not_ends _ he
      simp [hu, hr, hf]

end Exclusion

end World

/-! ### The report of a run -/

namespace Report

/-- The report of an evaluation. -/
def ofOutcome : Outcome → Report
  | (.ok _, s) => ⟨0, s.console.output, s.console.errors⟩
  | (.error f, s) => ⟨70, s.console.output, s.console.errors ++ (f.report ++ "\n")⟩

variable {w : World} {path : Option String}

theorem ofRun_of_refused {text : String} {d : Diagnostic} (hh : w.Holds path text)
    (ht : Script.tree ⟨Script.title path, text⟩ = .error d) (fuel : Nat) :
    ofRun fuel w path = some (ofDiagnostic d (some ⟨Script.title path, text⟩)) := by
  simp only [ofRun, hh.load, ht]

theorem ofRun_of_tree {text : String} {root : Node} (hh : w.Holds path text)
    (ht : Script.tree ⟨Script.title path, text⟩ = .ok root) (fuel : Nat) :
    ofRun fuel w path = (evaluate fuel root w.start).map ofOutcome := by
  simp only [ofRun, hh.load, ht, execute, run]
  -- A program begins on an empty table, as it is.
  change ((((evaluate fuel root w.start).map _).map _).map _) = _
  cases evaluate fuel root w.start with
  | none => rfl
  | some o =>
      obtain ⟨r, s⟩ := o
      cases r <;> rfl

theorem ofDiagnostic_unreadable (name : String) (why : Failure) :
    ofDiagnostic (.unreadable name why) none =
      ⟨1, "", "error: cannot read `" ++ name ++ "`: " ++ why.message ++ "\n"⟩ := by
  have hlead : "error: " ++ "cannot read `" = "error: cannot read `" := by decide
  have hrender : (Diagnostic.unreadable name why).render none =
      "error: cannot read `" ++ name ++ "`: " ++ why.message :=
    calc "error: " ++ ("cannot read `" ++ name ++ "`: " ++ why.message)
        = "error: " ++ "cannot read `" ++ name ++ "`: " ++ why.message := by
          repeat rw [String.append_assoc]
      _ = "error: cannot read `" ++ name ++ "`: " ++ why.message := by rw [hlead]
  rw [ofDiagnostic, hrender]
  rfl

/-- Unless there is a program at the path, the report is the same for all numbers of steps. -/
theorem ofRun_or_program (w : World) (path : Option String) :
    (∃ report, w.Reports path report ∧ ∀ fuel, ofRun fuel w path = some report) ∨
      ∃ text root, w.Holds path text ∧ Script.tree ⟨Script.title path, text⟩ = .ok root := by
  cases hb : w.bytes path with
  | error why =>
      refine .inl ⟨_, .unreadable hb, fun fuel => ?_⟩
      simp only [ofRun, w.load_eq, hb, Script.ofReading, ofDiagnostic_unreadable]
  | ok bytes =>
      cases hd : Bytes.decode bytes with
      | error why =>
          obtain ⟨rfl, hno⟩ := Bytes.decode_eq_error_iff.mp hd
          refine .inl ⟨_, .notText hb hno, fun fuel => ?_⟩
          simp only [ofRun, w.load_eq, hb, Script.ofReading, Script.ofBytes, hd,
            ofDiagnostic_unreadable]
      | ok text =>
          obtain rfl := Bytes.decode_eq_ok_iff.mp hd
          cases ht : Script.tree ⟨Script.title path, text⟩ with
          | error d =>
              have hcode : d.code = 65 := by
                obtain ⟨e, rfl, -⟩ | ⟨ts, e, rfl, -⟩ := Script.tree_eq_error_iff.mp ht <;> rfl
              refine .inl ⟨_, .refused hb ht, fun fuel => ?_⟩
              rw [ofRun_of_refused hb ht, ofDiagnostic, hcode]
          | ok root => exact .inr ⟨text, root, hb, ht⟩

/-- What a run reports does not depend on the steps that it may use. -/
theorem ofRun_unique {fuel fuel' : Nat} {r r' : Report} (h : ofRun fuel w path = some r)
    (h' : ofRun fuel' w path = some r') : r = r' := by
  obtain ⟨report, -, hall⟩ | ⟨text, root, hh, ht⟩ := ofRun_or_program w path
  · rw [hall] at h h'
    exact Option.some.inj (h.symm.trans h')
  · rw [ofRun_of_tree hh ht, Option.map_eq_some_iff] at h h'
    obtain ⟨o, ho, rfl⟩ := h
    obtain ⟨o', ho', rfl⟩ := h'
    exact congrArg ofOutcome (Machine.Halts.unique ⟨fuel, ho⟩ ⟨fuel', ho'⟩)

/-- A quiet evaluation is reported by its rule. -/
theorem reports_of_quiet {text : String} {root : Node} (hh : w.Holds path text)
    (ht : Script.tree ⟨Script.title path, text⟩ = .ok root) {fuel : Nat} {o : Outcome}
    (ho : evaluate fuel root w.start = some o)
    (hin : (Machine.start root w.start).inputs fuel = []) : w.Reports path (ofOutcome o) := by
  obtain ⟨r, s⟩ := o
  obtain ⟨herr, hprompt⟩ := Machine.run_quiet ho hin
  obtain ⟨vs, htrace⟩ := Event.exists_prints hprompt
  have hout : s.console.output = Value.lines vs := by
    have h := Machine.run_output ho
    rw [htrace, Event.onto_eq, List.map_map] at h
    exact h.trans (String.empty_append ..)
  replace herr : s.console.errors = "" := herr
  cases r with
  | ok v =>
      rw [ofOutcome, hout, herr]
      exact .done hh ht ho htrace
  | error f =>
      rw [ofOutcome, hout, herr, String.empty_append]
      exact .faulty hh ht ho htrace

end Report

/-- The program at the path, if there is one, makes no input and ends. -/
def World.IsQuiet (w : World) (path : Option String) : Prop :=
  ∀ text root, w.Holds path text → Script.tree ⟨Script.title path, text⟩ = .ok root →
    Quiet root w.start

/-- A quiet program has one report, and a rule for it. -/
theorem Report.exists_ofRun {w : World} {path : Option String} (hq : w.IsQuiet path) :
    ∃ report, (∃ fuel, ofRun fuel w path = some report) ∧ w.Reports path report := by
  obtain ⟨report, hr, hall⟩ | ⟨text, root, hh, ht⟩ := ofRun_or_program w path
  · exact ⟨report, ⟨0, hall 0⟩, hr⟩
  · obtain ⟨fuel, o, ho, hin⟩ := hq text root hh ht
    refine ⟨ofOutcome o, ⟨fuel, ?_⟩, reports_of_quiet hh ht ho hin⟩
    rw [ofRun_of_tree hh ht, ho, Option.map_some]

/-! ### Invocations -/

/-- The words that are commands. -/
def Action.commandWords : List String := ["run", "lex", "parse", "help", "version"]

/-- A path that is no command and no option stands for the command to run it. -/
theorem Action.ofArguments_path {path : String} (hword : path ∉ commandWords)
    (hoption : path.toList.head? ≠ some '-') : ofArguments [path] = ofArguments ["run", path] := by
  have hdash : ∀ option : String, option.toList.head? = some '-' → path ≠ option := by
    rintro option ho rfl
    exact hoption ho
  simp only [commandWords, List.mem_cons, List.not_mem_nil, or_false, not_or] at hword
  obtain ⟨hrun, hlex, hparse, hhelp, hversion⟩ := hword
  simp [ofArguments, hrun, hlex, hparse, hhelp, hversion, hoption,
    hdash "--help" (by decide), hdash "-h" (by decide), hdash "--version" (by decide),
    hdash "-V" (by decide), hdash "-" (by decide)]

/-- The standard input is run under each of its names. -/
theorem Report.ofArguments_standardInput (fuel : Nat) (w : World) {arguments : List String}
    (h : arguments ∈ [[], ["-"], ["run", "-"]]) :
    ofArguments fuel w arguments = ofArguments fuel w ["run"] := by
  have hload : w.load (some "-") = w.load none := rfl
  simp only [List.mem_cons, List.not_mem_nil, or_false] at h
  rcases h with rfl | rfl | rfl
  · rfl
  · rfl
  · simp only [ofArguments, Action.ofArguments, ofRun, if_pos, List.head?_cons, hload]
    rfl

/-- **A run is reported as it ends.**  Whatever the world gives for paths and for the standard input,
the program that is run may be anything: a path or a standard input that cannot be read, for any
reason, bytes that are no text, a text that is no program, or a program that makes no input and
ends.  There is one report for it, however many steps it may use, and a rule that tells its exit
code and what stands on its two streams; the code tells the cases apart.  The command may be left
out before a path that is not itself a command or an option, and the standard input has no name or
the name `-`, with the command or without it. -/
theorem run_is_reported (w : World) :
    (∀ rest : List String, w.IsQuiet rest.head? →
      ∃ report, (∃ fuel, Report.ofArguments fuel w ("run" :: rest) = some report) ∧
        (∀ fuel r, Report.ofArguments fuel w ("run" :: rest) = some r → r = report) ∧
        w.Reports rest.head? report ∧
        (report.code = 1 ↔ w.Unreadable rest.head?) ∧
        (report.code = 65 ↔ w.Refuses rest.head?) ∧
        (report.code = 70 ↔ w.Faults rest.head?) ∧
        (report.code = 0 ↔
          ¬ w.Unreadable rest.head? ∧ ¬ w.Refuses rest.head? ∧ ¬ w.Faults rest.head?)) ∧
    (∀ fuel path, path ∉ Action.commandWords → path.toList.head? ≠ some '-' →
      Report.ofArguments fuel w [path] = Report.ofArguments fuel w ["run", path]) ∧
    ∀ fuel, ∀ arguments ∈ [[], ["-"], ["run", "-"]],
      Report.ofArguments fuel w arguments = Report.ofArguments fuel w ["run"] := by
  have hcommand : ∀ fuel rest,
      Report.ofArguments fuel w ("run" :: rest) = Report.ofRun fuel w rest.head? := fun _ _ => rfl
  refine ⟨fun rest hq => ?_, fun fuel path hword hoption => ?_, fun fuel arguments h => ?_⟩
  · obtain ⟨report, ⟨fuel, hrun⟩, hreports⟩ := Report.exists_ofRun hq
    simp only [hcommand]
    exact ⟨report, ⟨fuel, hrun⟩, fun fuel' r hr => Report.ofRun_unique hr hrun, hreports,
      hreports.code_iff⟩
  · rw [Report.ofArguments, Action.ofArguments_path hword hoption]
    rfl
  · exact Report.ofArguments_standardInput fuel w h

/-- The file at one path prints a number and then divides by zero.  Nothing else can be read, and not
even the standard input. -/
def World.dividing : World where
  file path :=
    if path = "/srv/half.mint" then .ok (Bytes.encode "print(7); print(1 / 0);")
    else .error .notFound
  input := .error (.other "Input/output error (os error 5)")
  terminal := .absent .noTerminal

theorem division_is_reported :
    (∃ report fuel, Report.ofArguments fuel World.dividing ["/srv/half.mint"] = some report ∧
      report.code = 70 ∧ World.dividing.Reports (some "/srv/half.mint") report) ∧
    ∃ report fuel, Report.ofArguments fuel World.dividing [] = some report ∧
      report.code = 1 ∧ World.dividing.Reports none report := by
  let path : Option String := some "/srv/half.mint"
  let script : Script := ⟨Script.title path, "print(7); print(1 / 0);"⟩
  let root : Node := .block [.print (.number 7), .print (.binary .div (.number 1) (.number 0))]
  have hh : World.dividing.Holds path script.text := rfl
  have hlex : lex script.text = .ok
      [⟨.keyword .print, ⟨0, 5⟩⟩, ⟨.mark .openParen, ⟨5, 6⟩⟩, ⟨.number 7, ⟨6, 7⟩⟩,
        ⟨.mark .closeParen, ⟨7, 8⟩⟩, ⟨.mark .semicolon, ⟨8, 9⟩⟩, ⟨.keyword .print, ⟨10, 15⟩⟩,
        ⟨.mark .openParen, ⟨15, 16⟩⟩, ⟨.number 1, ⟨16, 17⟩⟩, ⟨.mark .slash, ⟨18, 19⟩⟩,
        ⟨.number 0, ⟨20, 21⟩⟩, ⟨.mark .closeParen, ⟨21, 22⟩⟩, ⟨.mark .semicolon, ⟨22, 23⟩⟩,
        ⟨.finish, ⟨23, 23⟩⟩] := lex_of_toOption (by decide +kernel)
  have htree : script.tree = .ok root := (Script.tree_of_lex hlex).mpr rfl
  obtain ⟨s, hrun⟩ : ∃ s, evaluate 20 root World.dividing.start =
      some (.error .divisionByZero, s) := ⟨_, rfl⟩
  have hquiet : World.dividing.IsQuiet path := by
    intro text' root' hh' htree'
    cases hh.unique hh'
    cases htree.symm.trans htree'
    exact ⟨20, _, hrun, by decide +kernel⟩
  have hnone : World.dividing.Unreadable none := fun _ h => nomatch h
  obtain ⟨hreport, hpath, hinput⟩ := run_is_reported World.dividing
  constructor
  · obtain ⟨report, ⟨fuel, hf⟩, -, hreports, -, -, hfault, -⟩ := hreport ["/srv/half.mint"] hquiet
    refine ⟨report, fuel, (hpath fuel _ (by decide) (by decide)).trans hf, hfault.mpr ?_, hreports⟩
    exact ⟨_, script.text, root, 20, s, hh, htree, hrun⟩
  · obtain ⟨report, ⟨fuel, hf⟩, -, hreports, hunread, -⟩ :=
      hreport [] fun text _ h => absurd h (hnone text)
    exact ⟨report, fuel, (hinput fuel [] (by simp)).trans hf, hunread.mpr hnone, hreports⟩

end Treewalk
