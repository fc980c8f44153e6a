/-!
# Text — Numerals

Numbers as text.  `Numeral.digits base n` writes `n` with the fewest digits, lower case above
nine; `Numeral.natural?` and `Numeral.word?` read decimal text back.  The words of the language
are 64-bit integers in two's complement: a number outside their range is refused when it is read
(`Numeral.fit?`) and never cut down to size.
-/

namespace Treewalk.Numeral

/-- The digit of value `d`, for `d` below sixteen. -/
def digit (d : Nat) : Char :=
  if d < 10 then Char.ofNat (48 + d) else Char.ofNat (87 + d)

/-- The digits of `n`, most significant first, without leading zeros. -/
def digits (base n : Nat) : List Char :=
  if 2 ≤ base ∧ base ≤ n then digits base (n / base) ++ [digit (n % base)] else [digit n]
termination_by n
decreasing_by
  rename_i h
  exact Nat.div_lt_self (by omega) h.1

/-- The decimal text of an integer: a minus sign below zero, and no plus sign above. -/
def ofInt : Int → List Char
  | .ofNat n => digits 10 n
  | .negSucc n => '-' :: digits 10 (n + 1)

/-- The decimal text of a natural number. -/
def ofNat (n : Nat) : String :=
  String.ofList (digits 10 n)

/-- The decimal text of a word. -/
def ofWord (n : Int64) : String :=
  String.ofList (ofInt n.toInt)

/-- The number that decimal digits spell. -/
def value (ds : List Char) : Nat :=
  ds.foldl (fun n c => 10 * n + (c.toNat - 48)) 0

/-- One past the greatest word: the size of the least one. -/
def bound : Nat := 9223372036854775808

/-- The word that equals `n`, if there is one. -/
def fit? (n : Int) : Option Int64 :=
  if -bound ≤ n ∧ n < bound then some (Int64.ofInt n) else none

/-- The number of a text that consists of digits, at least one of them. -/
def natural? (cs : List Char) : Option Nat :=
  if !cs.isEmpty && cs.all Char.isDigit then some (value cs) else none

/-- The word that a text spells: one sign at most, then digits, within the range of words. -/
def word? : List Char → Option Int64
  | '-' :: ds => (natural? ds).bind fun n => fit? (-n)
  | '+' :: ds => (natural? ds).bind fun n => fit? n
  | ds => (natural? ds).bind fun n => fit? n

end Treewalk.Numeral
