import Treewalk.Program.Script
import Treewalk.Run.Machine

/-!
# Program — The command line

What the arguments call for (`Action`), and what a program started with them does (`Report`): its
exit code and what it writes.  The first argument is a command, an option or the path of a program;
the path `-`, or none, stands for the standard input.

What a path leads to is not decided here.  A `World` may give any bytes for a path, or any failure,
and the same for the standard input.
-/

namespace Treewalk

/-- What a program does as a whole. -/
structure Report where
  /-- Its exit code. -/
  code : Nat
  /-- What it writes on its standard output. -/
  output : String
  /-- What it writes on its standard error. -/
  errors : String
  deriving DecidableEq, Repr

namespace Report

/-- How the command line is used, line by line. -/
def usageLines : List String := [
  "Mint interpreter",
  "",
  "Usage: mint <command> [file]",
  "",
  "Commands:",
  "  run <file.mint>      Parse and execute a program (`-` or no file: stdin)",
  "  <file.mint>          Shorthand for `run <file.mint>`",
  "  lex <file.mint>      Tokenize and display tokens",
  "  parse <file.mint>    Parse and display the program tree",
  "  help                 Show this help message",
  "  version              Show version information",
  "",
  "Input statements always read the terminal, even when the program",
  "comes from stdin.",
  "",
  "Environment:",
  "  RUST_LOG             Enable debug logging to stderr (e.g. RUST_LOG=mint_eval=debug)"
]

/-- How the command line is used. -/
def usage : String := String.join (usageLines.map (· ++ "\n"))

/-- The usage, for one who asked. -/
def help : Report := ⟨0, usage, ""⟩

/-- The version. -/
def version : Report := ⟨0, "Mint 0.1.0\n", ""⟩

/-- The command needs a path and got none. -/
def needsPath (command : String) : Report := ⟨1, "", "Usage: mint " ++ command ++ " <file.mint>\n"⟩

/-- There is no such option. -/
def unknownOption (option : String) : Report := ⟨1, usage, "Unknown option: " ++ option ++ "\n\n"⟩

/-- A listing, and nothing else. -/
def ofText (text : String) : Report := ⟨0, text, ""⟩

/-- The line of a diagnostic, and its code. -/
def ofDiagnostic (d : Diagnostic) (script : Option Script) : Report :=
  ⟨d.code, "", d.render script ++ "\n"⟩

end Report

/-- What the arguments call for. -/
inductive Action where
  /-- Run the program at the path, or from the standard input. -/
  | run (path : Option String)
  /-- List the tokens of the program at the path. -/
  | tokens (path : String)
  /-- List the tree of the program at the path. -/
  | tree (path : String)
  /-- Say something, and do nothing else. -/
  | say (report : Report)
  deriving DecidableEq, Repr

/-- The action of a list of arguments.  What follows the arguments of a command is not looked
at. -/
def Action.ofArguments : List String → Action
  | [] => .run none
  | command :: rest =>
    if command = "run" then .run rest.head?
    else if command = "lex" then
      match rest with
      | [] => .say (.needsPath command)
      | path :: _ => .tokens path
    else if command = "parse" then
      match rest with
      | [] => .say (.needsPath command)
      | path :: _ => .tree path
    else if command = "help" ∨ command = "--help" ∨ command = "-h" then .say .help
    else if command = "version" ∨ command = "--version" ∨ command = "-V" then .say .version
    else if command = "-" then .run none
    else if command.toList.head? = some '-' then .say (.unknownOption command)
    else .run (some command)

/-- The name of the standard input in diagnostics. -/
def Script.standardInput : String := "<stdin>"

/-- What surrounds a program. -/
structure World where
  /-- What reading the file at a path gives. -/
  file : String → Except Failure (List UInt8)
  /-- What reading the standard input gives. -/
  input : Except Failure (List UInt8)
  /-- The terminal, which `input` statements read. -/
  terminal : Device

namespace World

/-- The script at a path. -/
def load (w : World) (path : Option String) : Except Diagnostic Script :=
  match path with
  | none | some "-" => Script.ofReading Script.standardInput w.input
  | some path => Script.ofReading path (w.file path)

end World

namespace Report

/-- The report of a listing. -/
def ofListing (w : World) (path : String) (list : Script → Except Diagnostic String) : Report :=
  match w.load path with
  | .error d => ofDiagnostic d none
  | .ok script =>
    match list script with
    | .error d => ofDiagnostic d script
    | .ok text => ofText text

/-- The report of a run of at most `fuel` steps.  Nothing is evaluated unless the whole text is a
program. -/
def ofRun (fuel : Nat) (w : World) (path : Option String) : Option Report :=
  match w.load path with
  | .error d => some (ofDiagnostic d none)
  | .ok script =>
    match script.tree with
    | .error d => some (ofDiagnostic d script)
    | .ok root =>
      (execute fuel root (.start (.device w.terminal))).map fun (status, s) =>
        ⟨status.code, s.console.output, s.console.errors⟩

/-- The report of a program started with these arguments. -/
def ofArguments (fuel : Nat) (w : World) (arguments : List String) : Option Report :=
  match Action.ofArguments arguments with
  | .run path => ofRun fuel w path
  | .tokens path => some (ofListing w path Script.tokenListing)
  | .tree path => some (ofListing w path Script.treeListing)
  | .say report => some report

end Report

end Treewalk
