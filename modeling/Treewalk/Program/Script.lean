import Treewalk.Parse.Program
import Treewalk.Source.Bytes
import Treewalk.Token.Lexer
import Treewalk.Tree.Printer

/-!
# Program — Scripts, diagnostics and listings

A script is the text of a program with the name that diagnostics call it by.  `Script.tree` is the
whole way from the text to the program; what stops it is a `Diagnostic`, which is told in one line
and has an exit code.  A listing is a script on paper: its tokens, one to a line, or its tree.
-/

namespace Treewalk

/-- A program's text, and its name. -/
structure Script where
  name : String
  text : String
  deriving DecidableEq, Repr

/-- Why a program cannot be run. -/
inductive Diagnostic where
  /-- Its text cannot be had. -/
  | unreadable (path : String) (why : Failure)
  /-- Its text has no tokens. -/
  | lexical (e : LexError)
  /-- Its tokens are no program. -/
  | grammatical (e : ParseError)
  deriving DecidableEq, Repr

namespace Diagnostic

/-- The diagnostic in words. -/
def message : Diagnostic → String
  | unreadable path why => "cannot read `" ++ path ++ "`: " ++ why.message
  | lexical e => e.message
  | grammatical e => e.message

/-- The exit code of a program that is not run for this reason. -/
def code : Diagnostic → Nat
  | unreadable _ _ => 1
  | lexical _ => 65
  | grammatical _ => 65

/-- The place in the text that the diagnostic is about. -/
def span? : Diagnostic → Option Span
  | unreadable _ _ => none
  | lexical e => some e.span
  | grammatical e => some e.span

/-- The diagnostic as one line.  It begins with the name, line and column if it is about a place in
a script that is at hand. -/
def render (d : Diagnostic) (script : Option Script) : String :=
  match d.span?, script with
  | some span, some s =>
    s.name ++ ":" ++ (span.position s.text).text ++ ": error: " ++ d.message
  | _, _ => "error: " ++ d.message

end Diagnostic

namespace Script

/-- The script that the bytes encode. -/
def ofBytes (name : String) (bytes : List UInt8) : Except Diagnostic Script :=
  match Bytes.decode bytes with
  | .ok text => .ok ⟨name, text⟩
  | .error why => .error (.unreadable name why)

/-- The script that a reading gives. -/
def ofReading (name : String) : Except Failure (List UInt8) → Except Diagnostic Script
  | .ok bytes => ofBytes name bytes
  | .error why => .error (.unreadable name why)

/-- The tokens of a script. -/
def tokens (s : Script) : Except Diagnostic (List Token) :=
  (lex s.text).mapError .lexical

/-- The program of a script.  A list of tokens made from a text holds an end token, so the parser
has an answer. -/
def tree (s : Script) : Except Diagnostic Node :=
  match h : lex s.text with
  | .error e => .error (.lexical e)
  | .ok ts => ((parse ts).get (parse_isSome (lex_ends h))).mapError .grammatical

/-! ### Listings -/

/-- The text, with blanks behind it up to a width of `n` characters. -/
def pad (n : Nat) (s : String) : String :=
  s ++ String.ofList (List.replicate (n - s.length) ' ')

/-- The line of one token: its position, kind and span. -/
def tokenLine (s : Script) (t : Token) : String :=
  "  " ++ pad 7 (t.span.position s.text).text ++ " " ++ t.label ++ "\n"

/-- The tokens of a script under a heading. -/
def tokenListing (s : Script) : Except Diagnostic String :=
  s.tokens.map fun ts =>
    "Tokens for '" ++ s.name ++ "' (" ++ Numeral.ofNat ts.length ++ " tokens):\n" ++
      String.join (ts.map s.tokenLine)

/-- The tree of a script under a heading, with the number of its nodes. -/
def treeListing (s : Script) : Except Diagnostic String :=
  s.tree.map fun root =>
    "Parse result for '" ++ s.name ++ "':\n  Nodes: " ++ Numeral.ofNat root.count ++ "\n" ++
      root.render ++ "\n"

end Script

end Treewalk
