import Mathlib.Tactic.SplitIfs
import Treewalk.Text.Quoted

/-!
# Text — Runs and lines

The longest run of items at the head of a list that satisfy a test: a list that is put together from
such a run and something that does not continue it is cut at the seam, and only there.

What is told on one line must not end it.  Numbers never do, and a text that is quoted does not
either, whatever it says: the end of a line is written as an escape.
-/

namespace Treewalk

/-! ### Runs -/

namespace Text

section Runs

variable {α : Type} {p : α → Bool}

/-- `rest` does not continue a run of `p`. -/
def Stops (p : α → Bool) (rest : List α) : Prop :=
  ∀ a ∈ rest.head?, p a = false

theorem stops_nil : Stops p [] := fun _ h => nomatch h

theorem stops_cons {a : α} {rest : List α} : Stops p (a :: rest) ↔ p a = false := by
  simp [Stops]

theorem takeWhile_run {xs rest : List α} (hx : ∀ a ∈ xs, p a) (hr : Stops p rest) :
    (xs ++ rest).takeWhile p = xs := by
  rw [List.takeWhile_append_of_pos hx]
  cases rest with
  | nil => simp
  | cons a rest => simp [stops_cons.mp hr]

theorem dropWhile_run {xs rest : List α} (hx : ∀ a ∈ xs, p a) (hr : Stops p rest) :
    (xs ++ rest).dropWhile p = rest := by
  rw [List.dropWhile_append_of_pos hx]
  cases rest with
  | nil => rfl
  | cons a rest => simp [stops_cons.mp hr]

theorem forall_mem_takeWhile (p : α → Bool) (xs : List α) : ∀ a ∈ xs.takeWhile p, p a := by
  have h := List.all_takeWhile (p := p) (l := xs)
  rwa [List.all_eq_true] at h

theorem stops_dropWhile (p : α → Bool) (xs : List α) : Stops p (xs.dropWhile p) := by
  intro a ha
  have h := List.head?_dropWhile_not p xs
  rw [Option.mem_def.mp ha] at h
  simpa using h

theorem take_length_takeWhile (p : α → Bool) (xs : List α) :
    xs.take (xs.takeWhile p).length = xs.takeWhile p :=
  List.prefix_iff_eq_take.mp (List.takeWhile_prefix p) |>.symm

theorem drop_length_takeWhile (p : α → Bool) (xs : List α) :
    xs.drop (xs.takeWhile p).length = xs.dropWhile p := by
  have h : (xs.takeWhile p ++ xs.dropWhile p).drop (xs.takeWhile p).length = xs.dropWhile p :=
    List.drop_left
  rwa [List.takeWhile_append_dropWhile] at h

end Runs

end Text

/-! ### Lines -/

/-- The text has no end of a line in it. -/
def OneLine (s : String) : Prop := '\n' ∉ s.toList

instance (s : String) : Decidable (OneLine s) := inferInstanceAs (Decidable (¬ _))

theorem OneLine.append {a b : String} (ha : OneLine a) (hb : OneLine b) : OneLine (a ++ b) := by
  rw [OneLine, String.toList_append, List.mem_append, not_or]
  exact ⟨ha, hb⟩

/-- Words around a text of one line do not end the line. -/
theorem OneLine.between {a b c : String} (hb : OneLine b) (ha : OneLine a := by decide)
    (hc : OneLine c := by decide) : OneLine (a ++ b ++ c) :=
  (ha.append hb).append hc

theorem oneLine_ofList {cs : List Char} : OneLine (String.ofList cs) ↔ '\n' ∉ cs := by
  rw [OneLine, String.toList_ofList]

/-! ### Numbers -/

namespace Numeral

/-- The characters of a numeral are digits. -/
theorem exists_digit_of_mem {base n : Nat} (hbase : 2 ≤ base) {c : Char}
    (h : c ∈ digits base n) : ∃ d < base, c = digit d := by
  induction n using Nat.strongRecOn with
  | ind n ih =>
      rw [digits] at h
      split at h
      · next hle =>
          rcases List.mem_append.mp h with h | h
          · exact ih (n / base) (Nat.div_lt_self (by omega) hbase) h
          · exact ⟨n % base, Nat.mod_lt _ (by omega), List.mem_singleton.mp h⟩
      · exact ⟨n, by omega, List.mem_singleton.mp h⟩

/-- The characters of the text of an integer are digits and a minus sign. -/
theorem forall_mem_ofInt {p : Char → Prop} (hminus : p '-') (hdigit : ∀ d < 10, p (digit d))
    (i : Int) : ∀ c ∈ ofInt i, p c := by
  have hdigits : ∀ n, ∀ c ∈ digits 10 n, p c := fun n c hc => by
    obtain ⟨d, hd, rfl⟩ := exists_digit_of_mem (by decide) hc
    exact hdigit d hd
  cases i with
  | ofNat n => exact hdigits n
  | negSucc n => exact List.forall_mem_cons.mpr ⟨hminus, hdigits (n + 1)⟩

theorem digit_ne_line : ∀ d < 16, digit d ≠ '\n' := by decide

theorem line_not_mem_digits (base n : Nat) (hlo : 2 ≤ base) (hhi : base ≤ 16) :
    '\n' ∉ digits base n := by
  intro h
  obtain ⟨d, hd, heq⟩ := exists_digit_of_mem hlo h
  exact digit_ne_line d (Nat.lt_of_lt_of_le hd hhi) heq.symm

theorem oneLine_ofNat (n : Nat) : OneLine (ofNat n) :=
  oneLine_ofList.mpr (line_not_mem_digits 10 n (by decide) (by decide))

theorem oneLine_ofWord (n : Int64) : OneLine (ofWord n) :=
  oneLine_ofList.mpr fun h =>
    forall_mem_ofInt (p := (· ≠ '\n')) (by decide) (by decide) n.toInt _ h rfl

end Numeral

/-! ### Quoted texts -/

namespace Text

theorem line_not_mem_codePoint (c : Char) : '\n' ∉ codePoint c := by
  have h := Numeral.line_not_mem_digits 16 c.toNat (by decide) (by decide)
  simpa [codePoint] using h

theorem line_not_mem_quoteChar (c : Char) : '\n' ∉ quoteChar c := by
  unfold quoteChar
  split_ifs with _ _ _ _ _ hline
  · decide
  · decide
  · decide
  · decide
  · decide
  · decide
  · exact line_not_mem_codePoint c
  · exact fun hmem => hline (List.mem_singleton.mp hmem).symm

/-- A quoted text is one line. -/
theorem oneLine_quote (s : String) : OneLine (quote s) := by
  rw [quote, oneLine_ofList]
  simp only [List.mem_cons, List.mem_append, List.mem_flatMap, not_or]
  refine ⟨by decide, ?_, by decide⟩
  rintro ⟨c, -, hc⟩
  exact line_not_mem_quoteChar c hc

end Text

end Treewalk
