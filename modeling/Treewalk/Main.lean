import Treewalk.Program.Command

/-!
# The program

Carries out on the real system what the command line calls for.  Everything that is decided is
decided elsewhere; here bytes are fetched and texts are written.  A run writes as it goes on, and
each `input` statement reads one line from the terminal, whatever the standard input is.
-/

namespace Treewalk.Main

/-- The failure of an error number, which some calls give with its sign turned. -/
def numbered (code : UInt32) (details : String) : Failure :=
  match (if code < 0x80000000 then code else 0 - code) with
  | 2 => .notFound
  | 20 => .notFolder
  | 21 => .isFolder
  | 36 => .nameTooLong
  | n => .other (details.capitalize ++ " (os error " ++ Numeral.ofNat n.toNat ++ ")")

/-- The system's error, as the library tells it. -/
def failure : IO.Error → Failure
  | .noFileOrDirectory _ _ _ => .notFound
  | .inappropriateType _ code details => numbered code details
  | .permissionDenied _ code details => numbered code details
  | .noSuchThing _ code details => numbered code details
  | .invalidArgument _ code details => numbered code details
  | .otherError code details => numbered code details
  | e => .other (toString e)

/-- What a call of the system gives. -/
def attempt {α : Type} (call : IO α) : IO (Except Failure α) := do
  match ← call.toBaseIO with
  | .ok a => return .ok a
  | .error e => return .error (failure e)

/-- The bytes of a stream, up to its end. -/
def drain (s : IO.FS.Stream) : IO (List UInt8) := do
  let mut bytes := ByteArray.empty
  repeat
    let chunk ← s.read 65536
    if chunk.isEmpty then break
    bytes := bytes ++ chunk
  return bytes.toList

/-- The script at a path, or on the standard input. -/
def load (path : Option String) : IO (Except Diagnostic Script) := do
  match path with
  | none | some "-" =>
    return Script.ofReading Script.standardInput (← attempt (drain (← IO.getStdin)))
  | some path =>
    return Script.ofReading path (← attempt (ByteArray.toList <$> IO.FS.readBinFile path))

/-- Writes both texts, each on its channel. -/
def write (output errors : String) : IO Unit := do
  if output ≠ "" then
    let out ← IO.getStdout
    out.putStr output
    out.flush
  if errors ≠ "" then
    (← IO.getStderr).putStr errors

/-- Writes what the console holds, and empties it. -/
def flush (s : State) : IO State := do
  write s.console.output s.console.errors
  return { s with console := .empty }

/-- The bytes of one line, the byte that ends it included. -/
def line (h : IO.FS.Handle) : IO (List UInt8) := do
  let mut bytes := ByteArray.empty
  repeat
    let chunk ← h.read 1
    bytes := bytes ++ chunk
    if chunk.isEmpty || chunk.toList.contains Bytes.lineEnd then break
  return bytes.toList

/-- The terminal as one `input` statement finds it.  The prompt is shown once it is open. -/
def terminal (name : String) : IO Device := do
  match ← attempt (IO.FS.Handle.mk "/dev/tty" .read) with
  | .error why => return .absent why
  | .ok h =>
    write (State.prompt name) ""
    match ← attempt (line h) with
    | .ok bytes => return .file bytes
    | .error why => return .broken why

/-- The machine after a step that asks the terminal for `name`.  What the step adds to the output is
the prompt, which has been shown. -/
def ask (m : Machine) (name : String) : IO Machine.Step := do
  let s ← flush m.state
  let device ← terminal name
  match Machine.step { m with state := { s with supply := .device device } } with
  | .next m =>
    return .next { m with state := { m.state with console := { m.state.console with output := "" } } }
  | step => return step

/-- Runs a program, and gives its exit code. -/
def execute (root : Node) : IO UInt32 := do
  let mut m := Machine.start root (.start (.script []))
  repeat
    let step ← match m.asks? with
      | some name => ask m name
      | none => pure m.step
    match step with
    | .next next => m := { next with state := ← flush next.state }
    | .halt (.ok _, _) => return 0
    | .halt (.error f, _) =>
      write "" (f.report ++ "\n")
      return Status.failure.code.toUInt32
  return 0

/-- Writes a report, and gives its exit code. -/
def finish (r : Report) : IO UInt32 := do
  write r.output r.errors
  return r.code.toUInt32

/-- Loads the script at a path and goes on with it. -/
def withScript (path : Option String) (go : Script → IO UInt32) : IO UInt32 := do
  match ← load path with
  | .error d => finish (.ofDiagnostic d none)
  | .ok script => go script

/-- Lists the script at a path. -/
def list (path : String) (listing : Script → Except Diagnostic String) : IO UInt32 :=
  withScript path fun script =>
    match listing script with
    | .error d => finish (.ofDiagnostic d script)
    | .ok text => finish (.ofText text)

end Treewalk.Main

open Treewalk in
/-- The program. -/
def main (arguments : List String) : IO UInt32 :=
  match Action.ofArguments arguments with
  | .run path =>
    Main.withScript path fun script =>
      match script.tree with
      | .error d => Main.finish (.ofDiagnostic d script)
      | .ok root => Main.execute root
  | .tokens path => Main.list path Script.tokenListing
  | .tree path => Main.list path Script.treeListing
  | .say report => Main.finish report
