import Treewalk.Text.Numeral

/-!
# Source — Spans and positions

A place in a source text.  A `Span` is a half-open range of byte offsets; a `Position` is a line
and a column, both counted from one, where columns count characters.

All of these numbers are words of 32 bits.  An offset that is greater than the greatest word
(`Span.limit`) is held at it, so every range of a text has a span.  A line or a column that would be
greater begins again at zero, which only a text of that many characters can bring about.
-/

namespace Treewalk

/-- The byte range from `start` up to, and without, `stop`. -/
structure Span where
  start : UInt32
  stop : UInt32
  deriving DecidableEq, Repr

namespace Span

/-- The greatest offset that a span holds. -/
def limit : Nat := 4294967295

/-- The span of a range of offsets, each held at `limit` when it is greater. -/
def ofRange (start stop : Nat) : Span :=
  ⟨.ofNatClamp start, .ofNatClamp stop⟩

/-- The span of what stands in no text. -/
def empty : Span := ⟨0, 0⟩

/-- Both offsets with two dots between. -/
def text (s : Span) : String :=
  Numeral.ofNat s.start.toNat ++ ".." ++ Numeral.ofNat s.stop.toNat

/-- The span is that of the bytes from `i` up to, and without, `j`. -/
def Covers (s : Span) (i j : Nat) : Prop :=
  s.start.toNat = i ∧ s.stop.toNat = j

/-- A range up to the greatest offset has a span of its own. -/
theorem covers_ofRange {i j : Nat} (hij : i ≤ j) (hj : j ≤ limit) : (ofRange i j).Covers i j :=
  ⟨UInt32.toNat_ofNatClamp_of_lt (Nat.lt_succ_of_le (Nat.le_trans hij hj)),
    UInt32.toNat_ofNatClamp_of_lt (Nat.lt_succ_of_le hj)⟩

end Span

/-- A line and a column, counted from one. -/
structure Position where
  line : UInt32
  column : UInt32
  deriving DecidableEq, Repr

namespace Position

/-- Where a text begins. -/
def first : Position := ⟨1, 1⟩

/-- Where the character after `c` stands, when `c` stands at `p`. -/
def after (p : Position) (c : Char) : Position :=
  if c = '\n' then ⟨p.line + 1, 1⟩ else ⟨p.line, p.column + 1⟩

/-- The position reached from `p` by the characters that begin in the next `offset` bytes. -/
def advance (p : Position) : Nat → List Char → Position
  | 0, _ => p
  | _, [] => p
  | n + 1, c :: cs => (p.after c).advance (n + 1 - c.utf8Size) cs

/-- The position of a byte offset.  An offset inside a character counts that character, and one
past the end of the text is the position after its last character. -/
def ofOffset (source : String) (offset : Nat) : Position :=
  first.advance offset source.toList

/-- The line, a colon and the column. -/
def text (p : Position) : String :=
  Numeral.ofNat p.line.toNat ++ ":" ++ Numeral.ofNat p.column.toNat

end Position

/-- The position where a span starts. -/
def Span.position (s : Span) (source : String) : Position :=
  Position.ofOffset source s.start.toNat

end Treewalk
