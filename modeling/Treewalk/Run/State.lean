import Treewalk.Run.Input
import Treewalk.Run.Table

/-!
# Run — The state

What nodes read and change: the table of names, the supply of inputs, and the console.  The console
has two channels, which only grow: what the program prints, prompts included, and the diagnostics
beside it.
-/

namespace Treewalk

/-- What has been written so far. -/
structure Console where
  /-- Prints and prompts. -/
  output : String
  /-- Warnings and the report of a fault. -/
  errors : String
  deriving DecidableEq, Repr

namespace Console

/-- Nothing has been written. -/
def empty : Console := ⟨"", ""⟩

/-- A text on the output. -/
def print (c : Console) (s : String) : Console := { c with output := c.output ++ s }

/-- A line on the output. -/
def printLine (c : Console) (s : String) : Console := c.print (s ++ "\n")

/-- A line on the error channel. -/
def errorLine (c : Console) (s : String) : Console := { c with errors := c.errors ++ (s ++ "\n") }

end Console

/-- What nodes read and change. -/
structure State where
  table : Table
  console : Console
  supply : Supply
  deriving DecidableEq, Repr

namespace State

/-- Nothing bound and nothing written. -/
def start (supply : Supply) : State := ⟨.empty, .empty, supply⟩

/-- The state with `x` bound to `v`. -/
def assign (s : State) (x : String) (v : Value) : State := { s with table := s.table.assign x v }

/-- The prompt for the input of `name`. -/
def prompt (name : String) : String := "Input for " ++ name ++ ": "

/-- The integer read for `name`, which is zero when none can be read, and the state behind it.  The
prompt is shown only if the supply could be opened, and a failure leaves a warning. -/
def ask (s : State) (name : String) : Int64 × State :=
  match s.supply.draw with
  | (.error e, supply) =>
    (0, { s with supply := supply, console := s.console.errorLine (e.warning name) })
  | (.ok reader, supply) =>
    let console := s.console.print (prompt name)
    match reader.readInteger with
    | (.ok n, _) => (n, { s with supply := supply, console := console })
    | (.error e, _) =>
      (0, { s with supply := supply, console := console.errorLine (e.warning name) })

end State

end Treewalk
