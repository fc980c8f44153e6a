import Treewalk.Source.Bytes
import Treewalk.Text.Numeral

/-!
# Run — Input

Where the integers of `input` statements come from.  Each such statement opens its supply anew and
reads one line from the reader that it gets; only the first word of the line counts, and it must
spell an integer.  A line is used up even if it is no text.  Words are separated by the characters
with the Unicode property `White_Space`; the language's own source text knows fewer blanks, and they
are the lexer's.

A supply is either a script of replies, of which each statement takes the next, or a device, which
is opened at its beginning every time.
-/

namespace Treewalk

/-- Why no integer was read. -/
inductive InputError where
  /-- The supply could not be opened. -/
  | unavailable (why : Failure)
  /-- The line could not be read. -/
  | unreadable (why : Failure)
  /-- There was no line. -/
  | closed
  /-- The first word of the line spells no integer. -/
  | malformed (word : String)
  deriving DecidableEq, Repr

namespace InputError

/-- The error in words. -/
def message : InputError → String
  | unavailable why => "cannot open terminal: " ++ why.message
  | unreadable why => "cannot read from terminal: " ++ why.message
  | closed => "input closed before a line was read"
  | malformed word => "`" ++ word ++ "` is not an integer"

/-- The warning that the input of `name` has failed. -/
def warning (name : String) : InputError → String
  | unavailable why =>
    "warning: cannot open terminal for input of " ++ name ++ ": " ++ why.message
  | e => "warning: invalid integer input for " ++ name ++ ": " ++ e.message

end InputError

/-! ### Words of a line -/

namespace Text

/-- The character separates words: it has the property `White_Space`. -/
def isBlank (c : Char) : Bool :=
  let n := c.toNat
  (9 ≤ n && n ≤ 13) || n == 0x20 || n == 0x85 || n == 0xa0 || n == 0x1680 ||
    (0x2000 ≤ n && n ≤ 0x200a) || n == 0x2028 || n == 0x2029 || n == 0x202f || n == 0x205f ||
    n == 0x3000

/-- The first word of a line: the first run of characters that are not blank, empty if there is
none. -/
def firstWord (line : List Char) : List Char :=
  (line.dropWhile isBlank).takeWhile fun c => !isBlank c

end Text

/-- The integer of a line: its first word, read as a word of the language. -/
def integerOfLine (line : List UInt8) : Except InputError Int64 :=
  match Bytes.decode line with
  | .error why => .error (.unreadable why)
  | .ok s =>
    let word := Text.firstWord s.toList
    match Numeral.word? word with
    | some n => .ok n
    | none => .error (.malformed (String.ofList word))

/-! ### Readers and supplies -/

/-- Something that lines are read from. -/
inductive Reader where
  /-- These bytes are left. -/
  | holding (rest : List UInt8)
  /-- Every read fails. -/
  | failing (why : Failure)
  deriving DecidableEq, Repr

namespace Reader

/-- The integer of the next line, and the reader behind that line. -/
def readInteger : Reader → Except InputError Int64 × Reader
  | failing why => (.error (.unreadable why), failing why)
  | holding [] => (.error .closed, holding [])
  | holding (b :: bs) =>
    let (line, rest) := Bytes.splitLine (b :: bs)
    (integerOfLine line, holding rest)

/-- What `count` reads in a row give. -/
def readIntegers : Nat → Reader → List (Except InputError Int64)
  | 0, _ => []
  | count + 1, r =>
    let (first, r) := r.readInteger
    first :: r.readIntegers count

end Reader

/-- One reply of a script. -/
inductive Reply where
  /-- The user types this. -/
  | line (s : String)
  /-- The terminal cannot be opened. -/
  | unavailable
  deriving DecidableEq, Repr

/-- A device that is opened for each input. -/
inductive Device where
  /-- It cannot be opened. -/
  | absent (why : Failure)
  /-- It can be opened, and every read fails. -/
  | broken (why : Failure)
  /-- It holds these bytes each time it is opened. -/
  | file (bytes : List UInt8)
  deriving DecidableEq, Repr

/-- Where integers come from. -/
inductive Supply where
  | script (replies : List Reply)
  | device (d : Device)
  deriving DecidableEq, Repr

/-- The reader of one input, and the supply that later inputs find.  Behind its last reply a script
holds nothing to read. -/
def Supply.draw : Supply → Except InputError Reader × Supply
  | script [] => (.ok (.holding []), script [])
  | script (.line s :: replies) => (.ok (.holding (Bytes.encode s)), script replies)
  | script (.unavailable :: replies) => (.error (.unavailable .noTerminal), script replies)
  | device (.absent why) => (.error (.unavailable why), device (.absent why))
  | device (.broken why) => (.ok (.failing why), device (.broken why))
  | device (.file bytes) => (.ok (.holding bytes), device (.file bytes))

end Treewalk
