/-!
# Source — Bytes

What files, streams and devices give: bytes, or a failure.  A `Failure` is told in the words of the
operating system.  Text is bytes in UTF-8, and nothing else.
-/

namespace Treewalk

/-- Why bytes, or the text in them, could not be had. -/
inductive Failure where
  /-- Nothing has this name. -/
  | notFound
  /-- A path goes on below something that is not a folder. -/
  | notFolder
  /-- A folder holds no bytes of its own. -/
  | isFolder
  /-- A name or a path has more bytes than the system allows. -/
  | nameTooLong
  /-- The bytes are no text. -/
  | notText
  /-- There is no terminal to read from. -/
  | noTerminal
  /-- Another failure of the system, in its own words. -/
  | other (message : String)
  deriving DecidableEq, Repr

/-- The failure in words. -/
def Failure.message : Failure → String
  | notFound => "No such file or directory (os error 2)"
  | notFolder => "Not a directory (os error 20)"
  | isFolder => "Is a directory (os error 21)"
  | nameTooLong => "File name too long (os error 36)"
  | notText => "stream did not contain valid UTF-8"
  | noTerminal => "no terminal attached"
  | other message => message

namespace Bytes

/-- The text that the bytes encode. -/
def decode (bytes : List UInt8) : Except Failure String :=
  match String.fromUTF8? bytes.toByteArray with
  | some s => .ok s
  | none => .error .notText

/-- The bytes that encode a text. -/
def encode (s : String) : List UInt8 :=
  s.toUTF8.toList

/-- The byte that ends a line. -/
def lineEnd : UInt8 := 10

/-- The first line, with the byte that ends it if there is one, and the rest. -/
def splitLine (bytes : List UInt8) : List UInt8 × List UInt8 :=
  let line := bytes.takeWhile (· != lineEnd)
  match bytes.dropWhile (· != lineEnd) with
  | [] => (line, [])
  | b :: rest => (line ++ [b], rest)

end Bytes

end Treewalk
