import Treewalk.Token.Basic

/-!
# Token — Lexemes

Cutting a source text into lexemes.  A text that begins with `c` begins with exactly one lexeme:
`Lexeme.cut c rest` gives its class and how many characters of `rest` belong to it, always as many
as its class allows.  Blanks and comments are lexemes too; they yield no token.

Two classes are offences: a quotation mark whose text is not closed on its line, and a character
that starts nothing.
-/

namespace Treewalk.Lexeme

/-- The classes of lexemes. -/
inductive Shape where
  /-- A run of blanks. -/
  | gap
  /-- Two slashes and the rest of the line. -/
  | comment
  /-- Digits. -/
  | digits
  /-- A letter or underscore, then letters, digits and underscores. -/
  | word
  /-- An operator or a punctuation mark. -/
  | mark (m : Mark)
  /-- A text between quotation marks. -/
  | closedText
  /-- A quotation mark whose partner does not stand on its line. -/
  | openText
  /-- A character that starts nothing. -/
  | stray
  deriving DecidableEq, Repr

/-- The characters that only separate. -/
def isGap (c : Char) : Bool :=
  c == ' ' || c == '\t' || c == '\r' || c == '\n' || c == '\x0c'

/-- The characters that a word begins with. -/
def isWordStart (c : Char) : Bool :=
  c.isAlpha || c == '_'

/-- The characters that a word goes on with. -/
def isWordPart (c : Char) : Bool :=
  isWordStart c || c.isDigit

/-- How many characters satisfy `p` before the first that does not. -/
def run (p : Char → Bool) (cs : List Char) : Nat :=
  (cs.takeWhile p).length

/-- How far a text reaches after its opening quotation mark, and whether it is closed there; `n`
characters lie behind.  A backslash takes the next character with it, and no text goes on past the
end of its line. -/
def textReach (n : Nat) : List Char → Shape × Nat
  | [] => (.openText, n)
  | ['\\'] => (.openText, n)
  | '\\' :: c :: cs => if c = '\n' then (.openText, n) else textReach (n + 2) cs
  | c :: cs =>
    if c = '"' then (.closedText, n + 1)
    else if c = '\n' then (.openText, n)
    else textReach (n + 1) cs

/-- The mark that `c` alone makes. -/
def single? : Char → Option Mark
  | '=' => some .assign
  | '+' => some .plus
  | '-' => some .minus
  | '*' => some .star
  | '/' => some .slash
  | '%' => some .percent
  | '<' => some .less
  | '>' => some .greater
  | '(' => some .openParen
  | ')' => some .closeParen
  | '\x7b' => some .openBrace
  | '\x7d' => some .closeBrace
  | ';' => some .semicolon
  | _ => none

/-- The lexeme at the head of `c :: rest`: its class, and how many characters of `rest` belong
to it. -/
def cut (c : Char) (rest : List Char) : Shape × Nat :=
  if isGap c then (.gap, run isGap rest)
  else if c.isDigit then (.digits, run Char.isDigit rest)
  else if isWordStart c then (.word, run isWordPart rest)
  else if c = '"' then textReach 0 rest
  else if c = '/' ∧ rest.head? = some '/' then (.comment, run (· != '\n') rest)
  else if c = '=' ∧ rest.head? = some '=' then (.mark .equal, 1)
  else match single? c with
    | some m => (.mark m, 0)
    | none => (.stray, 0)

end Treewalk.Lexeme
