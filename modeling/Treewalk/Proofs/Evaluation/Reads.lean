import Mathlib.Data.List.Basic
import Treewalk.Proofs.Evaluation.Leaves

/-!
# Evaluation — Reads and lines

One reader that is read again and again.  Every read takes one line, whatever it makes of it: a line
that is no text or that spells no integer is used up like any other.  So reads and lines stay in
step.

* `Bytes.Lines`: the lines of a string of bytes.  Each string has one list of them
  (`Bytes.exists_lines`, `Bytes.Lines.unique`).
* `Reader.readInteger_lines`: one read gives what the first line gives on its own, and leaves the
  lines behind it.
* `Reader.readIntegers_lines`: so reads in a row give what the lines give one by one.
-/

namespace Treewalk

/-! ### Lines -/

namespace Bytes

/-- The bytes are these lines, one behind another.  A line has the byte that ends it; the last one
may lack it, and is not empty then. -/
inductive Lines : List UInt8 → List (List UInt8) → Prop where
  | nil : Lines [] []
  | unended {line : List UInt8} : line ≠ [] → lineEnd ∉ line → Lines line [line]
  | ended {line rest : List UInt8} {lines : List (List UInt8)} : lineEnd ∉ line →
      Lines rest lines → Lines (line ++ lineEnd :: rest) ((line ++ [lineEnd]) :: lines)

namespace Lines

theorem eq_nil {bytes : List UInt8} (h : Lines bytes []) : bytes = [] := by
  cases h
  rfl

/-- The first line is split off, and what is left has the other lines.  The line alone is a line as
well. -/
theorem splitLine {bytes line : List UInt8} {lines : List (List UInt8)}
    (h : Lines bytes (line :: lines)) :
    bytes ≠ [] ∧ line ≠ [] ∧ (Bytes.splitLine bytes).1 = line ∧ (Bytes.splitLine line).1 = line ∧
      Lines (Bytes.splitLine bytes).2 lines := by
  cases h with
  | unended hne hno =>
      rw [splitLine_unended hno]
      exact ⟨hne, hne, rfl, rfl, .nil⟩
  | ended hno hrest =>
      rw [splitLine_ended hno, splitLine_ended hno]
      exact ⟨by simp, by simp, rfl, rfl, hrest⟩

/-- A string of bytes has one list of lines. -/
theorem unique {bytes : List UInt8} {lines lines' : List (List UInt8)} (h : Lines bytes lines)
    (h' : Lines bytes lines') : lines = lines' := by
  induction lines generalizing bytes lines' with
  | nil =>
      cases lines' with
      | nil => rfl
      | cons line' lines' => exact absurd h.eq_nil h'.splitLine.1
  | cons line lines ih =>
      cases lines' with
      | nil => exact absurd h'.eq_nil h.splitLine.1
      | cons line' lines' =>
          obtain ⟨-, -, rfl, -, hrest⟩ := h.splitLine
          obtain ⟨-, -, rfl, -, hrest'⟩ := h'.splitLine
          rw [ih hrest hrest']

end Lines

/-- Every string of bytes has its lines. -/
theorem exists_lines (bytes : List UInt8) : ∃ lines, Lines bytes lines := by
  induction hk : bytes.length using Nat.strongRecOn generalizing bytes with
  | ind k ih =>
      have hfirst := splitLine_eq_iff.mp (rfl : (splitLine bytes).1 = _)
      generalize (splitLine bytes).1 = line at hfirst
      cases hfirst with
      | unended hno =>
          by_cases hne : bytes = []
          · exact ⟨[], hne ▸ .nil⟩
          · exact ⟨[bytes], .unended hne hno⟩
      | @ended line rest hno =>
          have hlt : rest.length < k := by
            rw [← hk, List.length_append, List.length_cons]
            omega
          obtain ⟨lines, hlines⟩ := ih rest.length hlt rest rfl
          exact ⟨_, .ended hno hlines⟩

end Bytes

/-! ### Reads -/

namespace Reader

/-- **One read takes one line.**  It gives what the first line gives on its own, and leaves the
others. -/
theorem readInteger_lines {bytes line : List UInt8} {lines : List (List UInt8)}
    (h : Bytes.Lines bytes (line :: lines)) :
    ∃ rest, Bytes.Lines rest lines ∧
      (holding bytes).readInteger = ((holding line).readInteger.1, holding rest) := by
  obtain ⟨hne, hne', hline, hline', hrest⟩ := h.splitLine
  refine ⟨_, hrest, ?_⟩
  rw [readInteger_of_ne_nil hne, readInteger_of_ne_nil hne', hline, hline']

/-- **Reads in a row take the lines one by one**, and find the reader closed behind the last. -/
theorem readIntegers_lines {bytes : List UInt8} {lines : List (List UInt8)}
    (h : Bytes.Lines bytes lines) (count : Nat) :
    readIntegers count (holding bytes) =
      (List.range count).map fun k => (holding (lines[k]?.getD [])).readInteger.1 := by
  induction count generalizing bytes lines with
  | zero => rfl
  | succ count ih =>
      rw [readIntegers, List.range_succ_eq_map, List.map_cons, List.map_map]
      cases lines with
      | nil =>
          obtain rfl := h.eq_nil
          exact congrArg _ (ih h)
      | cons line lines =>
          obtain ⟨rest, hrest, hread⟩ := readInteger_lines h
          simp only [hread, ih hrest]
          rfl

end Reader

/-- **Reads keep step with lines.**  A string of bytes has one list of lines.  However often its
reader is read, each read gives what the rules derive for the line of its number alone, whatever the
reads before it gave: that there is no line, that the line is no text, the integer that the first
word of the line spells, or that this word spells none. -/
theorem reads_keep_step_with_lines (bytes : List UInt8) :
    ∃ lines, (∀ ls, Bytes.Lines bytes ls ↔ ls = lines) ∧
      ∀ count, ((Reader.holding bytes).readIntegers count).length = count ∧
        ∀ k < count, ∀ x, ((Reader.holding bytes).readIntegers count)[k]? = some x ↔
          (Reader.holding (lines[k]?.getD [])).Gives x := by
  obtain ⟨lines, h⟩ := Bytes.exists_lines bytes
  refine ⟨lines, fun ls => ⟨fun h' => h'.unique h, fun e => e ▸ h⟩, fun count => ⟨?_, ?_⟩⟩
  · rw [Reader.readIntegers_lines h, List.length_map, List.length_range]
  · intro k hk x
    rw [Reader.readIntegers_lines h, List.getElem?_map, List.getElem?_range hk, Option.map_some,
      Option.some_inj, Reader.readInteger_eq_iff]

/-- The second of these lines is no text and the third is empty; the fourth begins with a blank that
is not in ASCII, and the last has no end. -/
def Bytes.fiveLines : List UInt8 :=
  encode "+012 apples" ++ 10 :: ([0xff] ++ 10 :: ([] ++ 10 ::
    (encode "\u00a0-9223372036854775808\r" ++ 10 :: encode "9223372036854775808")))

theorem sixth_read_is_closed :
    (Reader.holding Bytes.fiveLines).readIntegers 6 = [.ok 12, .error (.unreadable .notText),
      .error (.malformed ""), .ok Int64.minValue, .error (.malformed "9223372036854775808"),
      .error .closed] ∧
    (Reader.holding (Bytes.encode "\u00a0-9223372036854775808\r" ++ [10])).Gives
      (.ok Int64.minValue) ∧
    (Reader.holding []).Gives (.error .closed) := by
  have hreads : (Reader.holding Bytes.fiveLines).readIntegers 6 = [.ok 12,
      .error (.unreadable .notText), .error (.malformed ""), .ok Int64.minValue,
      .error (.malformed "9223372036854775808"), .error .closed] := by decide +kernel
  have hlines : Bytes.Lines Bytes.fiveLines [Bytes.encode "+012 apples" ++ [10], [0xff] ++ [10],
      [] ++ [10], Bytes.encode "\u00a0-9223372036854775808\r" ++ [10],
      Bytes.encode "9223372036854775808"] :=
    .ended (by decide +kernel) (.ended (by decide) (.ended (by decide) (.ended (by decide +kernel)
      (.unended (by decide +kernel) (by decide +kernel)))))
  obtain ⟨lines, hunique, hread⟩ := reads_keep_step_with_lines Bytes.fiveLines
  obtain rfl := (hunique _).mp hlines
  have hread := (hread 6).2
  rw [hreads] at hread
  exact ⟨hreads, (hread 3 (by decide) _).mp rfl, (hread 5 (by decide) _).mp rfl⟩

end Treewalk
