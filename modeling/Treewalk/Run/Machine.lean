import Treewalk.Run.Control
import Treewalk.Run.State

/-!
# Run — The machine

How nodes are evaluated.  The machine looks at a node or at a value that has just been computed,
and holds what is still to be done with that value as a list of frames, innermost first.  Each
`Machine.step` replaces the node by a part of it or hands the value to the first frame.  The frames
are data, so a deep tree needs no deep call stack.

An expression yields its value, an assignment and an input yield what they stored, and every other
statement yields `Value.unit`.  A fault ends the run where it arises and keeps what was done before.

A run may not end; `evaluate` therefore takes the number of steps that it may use.

`run` and `execute` evaluate a program on a table of its own; console and supply are those of the
caller and stay in use.  `execute` also reports a fault on the error channel and gives the status
that the run ends with.
-/

namespace Treewalk

/-- What is done with a value. -/
inductive Frame where
  /-- It is stored under the name. -/
  | store (name : String)
  /-- It is printed. -/
  | print
  /-- It is the left operand, and the right one is evaluated next. -/
  | left (op : Operator) (right : Node)
  /-- It is the right operand. -/
  | right (op : Operator) (left : Int64)
  /-- A construct goes on with it. -/
  | control (c : Control)

/-- What the machine looks at. -/
inductive Focus where
  | node (n : Node)
  | value (v : Value)

/-- An evaluation under way. -/
structure Machine where
  focus : Focus
  frames : List Frame
  state : State

/-- The result of an evaluation and the state behind it. -/
abbrev Outcome := Except Fault Value × State

namespace Machine

/-- What one step leads to. -/
inductive Step where
  | next (m : Machine)
  | halt (outcome : Outcome)

/-- Before a node. -/
def start (n : Node) (s : State) : Machine := ⟨.node n, [], s⟩

/-- What a construct does next. -/
def serve (r : Request) (frames : List Frame) (s : State) : Machine :=
  match r with
  | .ask n next => ⟨.node n, .control next :: frames, s⟩
  | .finished _ => ⟨.value .unit, frames, s⟩

/-- The step at a node. -/
def enter (n : Node) (frames : List Frame) (s : State) : Machine :=
  match n with
  | .block ss => serve (.sequence ss) frames s
  | .assign x e => ⟨.node e, .store x :: frames, s⟩
  | .input x =>
    let (n, s) := s.ask x
    ⟨.value (.int n), frames, s.assign x (.int n)⟩
  | .text t => ⟨.value (.text t), frames, s⟩
  | .print e => ⟨.node e, .print :: frames, s⟩
  | .branch c yes no => serve (.branch c yes no) frames s
  | .loop c body => serve (.loop c body) frames s
  | .binary op l r => ⟨.node l, .left op r :: frames, s⟩
  | .number n => ⟨.value (.int n), frames, s⟩
  | .var x => ⟨.value (s.table.read x), frames, s⟩

/-- The step at a value that frame `f` waits for. -/
def hand (v : Value) (f : Frame) (frames : List Frame) (s : State) : Step :=
  match f with
  | .store x => .next ⟨.value v, frames, s.assign x v⟩
  | .print =>
    .next ⟨.value .unit, frames, { s with console := s.console.printLine v.display }⟩
  | .left op r => .next ⟨.node r, .right op v.toInt :: frames, s⟩
  | .right op l =>
    match op.apply l v.toInt with
    | .ok n => .next ⟨.value (.int n), frames, s⟩
    | .error f => .halt (.error f, s)
  | .control c => .next (serve (c.resume v) frames s)

/-- One step. -/
def step : Machine → Step
  | ⟨.node n, frames, s⟩ => .next (enter n frames s)
  | ⟨.value v, [], s⟩ => .halt (.ok v, s)
  | ⟨.value v, f :: frames, s⟩ => hand v f frames s

/-- The outcome of at most `fuel` steps. -/
def run : Nat → Machine → Option Outcome
  | 0, _ => none
  | fuel + 1, m =>
    match m.step with
    | .next m => run fuel m
    | .halt outcome => some outcome

/-- The name that the next step asks an integer for. -/
def asks? : Machine → Option String
  | ⟨.node (.input x), _, _⟩ => some x
  | _ => none

end Machine

/-- The outcome of evaluating a node within `fuel` steps. -/
def evaluate (fuel : Nat) (n : Node) (s : State) : Option Outcome :=
  (Machine.start n s).run fuel

/-! ### Whole runs -/

/-- How a run ended. -/
inductive Status where
  /-- Every statement was carried out. -/
  | success
  /-- A fault ended it. -/
  | failure
  deriving DecidableEq, Repr

/-- The exit code of a program that ends so. -/
def Status.code : Status → Nat
  | success => 0
  | failure => 70

/-- The table that a program leaves, or its fault, and the caller's state with what the program
wrote and read. -/
def run (fuel : Nat) (root : Node) (s : State) : Option (Except Fault Table × State) :=
  (evaluate fuel root { s with table := .empty }).map fun (r, t) =>
    (r.map fun _ => t.table, { t with table := s.table })

/-- The line that reports a fault. -/
def Fault.report (f : Fault) : String := "runtime error: " ++ f.message

/-- The status of a run, with its fault reported. -/
def execute (fuel : Nat) (root : Node) (s : State) : Option (Status × State) :=
  (run fuel root s).map fun
    | (.ok _, s) => (.success, s)
    | (.error f, s) => (.failure, { s with console := s.console.errorLine f.report })

/-- The results of nodes evaluated one after another, up to the first fault. -/
def evaluateEach (fuel : Nat) : List Node → State → Option (List (Except Fault Value) × State)
  | [], s => some ([], s)
  | n :: ns, s =>
    match evaluate fuel n s with
    | none => none
    | some (.error f, s) => some ([.error f], s)
    | some (.ok v, s) => (evaluateEach fuel ns s).map fun (rs, s) => (.ok v :: rs, s)

end Treewalk
