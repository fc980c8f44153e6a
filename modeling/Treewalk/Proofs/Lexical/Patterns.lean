import Treewalk.Token.Lexer

/-!
# Lexical — Patterns

How a text is divided, told without a lexer.  Each class of lexemes has a pattern
(`Pattern.Matches`).  A text begins with the longest of its beginnings that some pattern matches; of
two patterns that match it, one that is a fixed word or mark wins.  Where no pattern matches, the
first character stands alone (`Munches`).  Pieces cut off one after another make up the text
(`Splits`).

A piece gives a token, or nothing if it is blank or a comment (`Piece.Gives`), or it is an offence
(`Piece.Offends`).  Only for digits does this depend on what stands before: whether the last token
is a minus sign (`behindMinus`).
-/

namespace Treewalk

/-! ### Patterns -/

/-- The patterns of lexemes. -/
inductive Pattern where
  /-- A run of blanks. -/
  | gap
  /-- Two slashes, up to the end of the line. -/
  | comment
  | keyword (k : Keyword)
  | mark (m : Mark)
  | digits
  /-- A text between quotation marks. -/
  | closedText
  /-- A quotation mark and what stands behind it on its line, as far as a text goes. -/
  | openText
  /-- A letter or underscore, then letters, digits and underscores. -/
  | name
  deriving DecidableEq, Repr

/-- The pattern is a fixed word or mark. -/
def Pattern.isLiteral : Pattern → Bool
  | keyword _ | mark _ => true
  | _ => false

/-- A letter or an underscore. -/
def IsLetter (c : Char) : Prop := 'A' ≤ c ∧ c ≤ 'Z' ∨ 'a' ≤ c ∧ c ≤ 'z' ∨ c = '_'

/-- A decimal digit. -/
def IsDigit (c : Char) : Prop := '0' ≤ c ∧ c ≤ '9'

/-- What may stand between quotation marks: a backslash takes the next character with it, and
neither is the end of a line. -/
inductive Inner : List Char → Prop where
  | nil : Inner []
  | plain {c : Char} {cs : List Char} : c ≠ '"' → c ≠ '\\' → c ≠ '\n' → Inner cs → Inner (c :: cs)
  | escaped {c : Char} {cs : List Char} : c ≠ '\n' → Inner cs → Inner ('\\' :: c :: cs)

/-- The pattern matches the whole text. -/
inductive Pattern.Matches : Pattern → List Char → Prop where
  | gap {cs : List Char} : cs ≠ [] → (∀ c ∈ cs, c ∈ [' ', '\t', '\r', '\n', '\x0c']) →
      Matches .gap cs
  | comment {cs : List Char} : '\n' ∉ cs → Matches .comment ('/' :: '/' :: cs)
  | keyword {k : Keyword} : Matches (.keyword k) k.spelling.toList
  | mark {m : Mark} : Matches (.mark m) m.spelling.toList
  | digits {cs : List Char} : cs ≠ [] → (∀ c ∈ cs, IsDigit c) → Matches .digits cs
  | closedText {cs : List Char} : Inner cs → Matches .closedText ('"' :: (cs ++ ['"']))
  | openText {cs : List Char} : Inner cs → Matches .openText ('"' :: cs)
  | name {c : Char} {cs : List Char} : IsLetter c → (∀ d ∈ cs, IsLetter d ∨ IsDigit d) →
      Matches .name (c :: cs)

/-! ### Dividing a text -/

/-- A part of a text, with the pattern that it matches; no pattern stands for a character that
starts nothing. -/
structure Piece where
  pattern : Option Pattern
  text : List Char
  deriving DecidableEq, Repr

/-- The text begins with the piece. -/
inductive Munches : List Char → Piece → Prop where
  | longest {cs text : List Char} {p : Pattern} : text <+: cs → p.Matches text →
      (∀ (q : Pattern) (t : List Char), t <+: cs → q.Matches t → t.length ≤ text.length) →
      (∀ q : Pattern, q.Matches text → q.isLiteral = true → p.isLiteral = true) →
      Munches cs ⟨some p, text⟩
  | stray {c : Char} {cs : List Char} :
      (∀ (q : Pattern) (t : List Char), t <+: c :: cs → ¬ q.Matches t) →
      Munches (c :: cs) ⟨none, [c]⟩

/-- The text is divided into the pieces, from the left. -/
inductive Splits : List Char → List Piece → Prop where
  | nil : Splits [] []
  | cons {p : Piece} {rest : List Char} {ps : List Piece} : Munches (p.text ++ rest) p →
      Splits rest ps → Splits (p.text ++ rest) (p :: ps)

/-! ### What a piece gives -/

/-- `Means cs ds`: what stands between quotation marks as `cs` means the text `ds`. -/
inductive Escape.Means : List Char → List Char → Prop where
  | nil : Means [] []
  | plain {c : Char} {cs ds : List Char} : c ≠ '\\' → Means cs ds → Means (c :: cs) (c :: ds)
  | escape {c d : Char} {cs ds : List Char} :
      (c, d) ∈ [('n', '\n'), ('t', '\t'), ('r', '\r'), ('\\', '\\'), ('"', '"'), ('0', '\x00')] →
      Means cs ds → Means ('\\' :: c :: cs) (d :: ds)
  | unknown {c : Char} {cs ds : List Char} : c ∉ ['n', 't', 'r', '\\', '"', '0'] → Means cs ds →
      Means ('\\' :: c :: cs) ('\\' :: c :: ds)
  | last : Means ['\\'] ['\\']

namespace Piece

/-- How many bytes the piece takes. -/
def size (p : Piece) : Nat := (String.ofList p.text).utf8ByteSize

/-- The piece is blank or a comment. -/
def isTrivial (p : Piece) : Bool := p.pattern == some .gap || p.pattern == some .comment

/-- What the piece gives, behind a minus sign if `m` holds: a kind of token, or nothing. -/
inductive Gives (m : Bool) : Piece → Option TokenKind → Prop where
  | gap {cs : List Char} : Gives m ⟨some .gap, cs⟩ none
  | comment {cs : List Char} : Gives m ⟨some .comment, cs⟩ none
  | keyword {k : Keyword} {cs : List Char} : Gives m ⟨some (.keyword k), cs⟩ (some (.keyword k))
  | mark {k : Mark} {cs : List Char} : Gives m ⟨some (.mark k), cs⟩ (some (.mark k))
  | number {n : Int64} {cs : List Char} : Numeral.value cs ≤ 9223372036854775807 →
      n.toInt = Numeral.value cs → Gives m ⟨some .digits, cs⟩ (some (.number n))
  | least {cs : List Char} : m = true → Numeral.value cs = 9223372036854775808 →
      Gives m ⟨some .digits, cs⟩ (some (.number Int64.minValue))
  | text {cs ds : List Char} : Escape.Means cs ds →
      Gives m ⟨some .closedText, '"' :: (cs ++ ['"'])⟩ (some (.text (String.ofList ds)))
  | name {cs : List Char} : Gives m ⟨some .name, cs⟩ (some (.name (String.ofList cs)))

/-- Why the piece is an offence, behind a minus sign if `m` holds. -/
inductive Offends (m : Bool) (span : Span) : Piece → LexError → Prop where
  | stray {c : Char} : Offends m span ⟨none, [c]⟩ (.stray (String.singleton c) span)
  | openText {cs : List Char} : Offends m span ⟨some .openText, cs⟩ (.openText span)
  | tooLarge {cs : List Char} : 9223372036854775807 < Numeral.value cs →
      ¬ (m = true ∧ Numeral.value cs = 9223372036854775808) →
      Offends m span ⟨some .digits, cs⟩ (.tooLarge (String.ofList cs) span)

end Piece

/-! ### What a text gives -/

/-- How many bytes the pieces take. -/
def Piece.total (ps : List Piece) : Nat := (String.ofList (ps.flatMap Piece.text)).utf8ByteSize

/-- The last piece that is neither blank nor a comment is a minus sign. -/
def behindMinus (ps : List Piece) : Bool :=
  (ps.filter (!·.isTrivial)).getLast?.any (·.pattern == some (.mark .minus))

/-- Where the piece stands, behind the pieces `before`. -/
def Piece.span (before : List Piece) (p : Piece) : Span :=
  .ofRange (total before) (total before + p.size)

/-- Behind the pieces `before`, the pieces give the tokens. -/
inductive Yields : List Piece → List Piece → List Token → Prop where
  | nil {before : List Piece} : Yields before [] []
  | skip {before ps : List Piece} {p : Piece} {ts : List Token} :
      p.Gives (behindMinus before) none → Yields (before ++ [p]) ps ts →
      Yields before (p :: ps) ts
  | token {before ps : List Piece} {p : Piece} {k : TokenKind} {ts : List Token} :
      p.Gives (behindMinus before) (some k) → Yields (before ++ [p]) ps ts →
      Yields before (p :: ps) (⟨k, p.span before⟩ :: ts)

/-- Behind the pieces `before`, the piece is an offence. -/
def OffenceAt (before : List Piece) (p : Piece) (e : LexError) : Prop :=
  p.Offends (behindMinus before) (p.span before) e

/-- Behind the pieces `before`, none of the pieces is an offence. -/
def Flawless (before ps : List Piece) : Prop :=
  ∀ qs p rs e, ps = qs ++ p :: rs → ¬ OffenceAt (before ++ qs) p e

/-- Behind the pieces `before`, the first offence among the pieces. -/
def FirstOffence (before ps : List Piece) (e : LexError) : Prop :=
  ∃ qs p rs, ps = qs ++ p :: rs ∧ Flawless before qs ∧ OffenceAt (before ++ qs) p e

end Treewalk
