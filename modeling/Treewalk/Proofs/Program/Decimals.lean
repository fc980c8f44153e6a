import Treewalk.Proofs.Evaluation.Leaves
import Treewalk.Proofs.Shape.Programs
import Treewalk.Proofs.Text.Quotation

/-!
# Program — Decimals

The decimal text of an integer is one that every reader of integers takes back, whichever way it
goes: a line of input is read with its sign, and a source has a minus sign and digits, which the
parser puts together again.

* `Numeral.spells_ofInt`: the text of an integer spells it.
* `Reader.readInteger_line`: one read takes one line.
* `decimal_read_back`: what is printed for an integer is read back by an input, and assigned by a
  program that has it for a literal.
-/

namespace Treewalk

open Grammar Treewalk.Symbol Lexeme

/-! ### The text of an integer -/

namespace Numeral

/-- **The text of an integer spells it.** -/
theorem spells_ofInt (i : Int) : Spells (ofInt i) i := by
  cases i with
  | ofNat n =>
      obtain ⟨hne, hall, hval⟩ := digits_ten n
      have h := Spells.plain hne hall
      rwa [hval] at h
  | negSucc n =>
      obtain ⟨hne, hall, hval⟩ := digits_ten (n + 1)
      have h := Spells.minus hne hall
      rwa [hval] at h

end Numeral

/-! ### Lines of input -/

/-- **One read takes one line**, and leaves what stands behind it. -/
theorem Reader.readInteger_line {s : String} (h : Bytes.lineEnd ∉ Bytes.encode s)
    (rest : List UInt8) :
    (holding (Bytes.encode (s ++ "\n") ++ rest)).readInteger =
      (integerOfLine (Bytes.encode (s ++ "\n")), holding rest) := by
  have hsplit := Bytes.splitLine_ended h rest
  have hline : Bytes.encode (s ++ "\n") = Bytes.encode s ++ [Bytes.lineEnd] := by
    rw [Bytes.encode_eq, Bytes.encode_eq, String.toList_append, List.flatMap_append]
    rfl
  rw [hline, List.append_assoc, List.singleton_append, readInteger_of_ne_nil (by simp), hsplit]

/-- A line with the text of an integer is read as the integer. -/
theorem integerOfLine_ofWord (n : Int64) :
    integerOfLine (Bytes.encode (Numeral.ofWord n ++ "\n")) = .ok n := by
  have hword : Text.FirstWord (Numeral.ofWord n ++ "\n").toList (Numeral.ofInt n.toInt) := by
    refine ⟨[], ['\n'], ?_, by simp, ?_, fun c hc => ?_,
      fun h => absurd h (Numeral.ofInt_ne_nil _)⟩
    · rw [String.toList_append, Numeral.ofWord, String.toList_ofList]
      rfl
    · exact Numeral.forall_mem_ofInt (by decide) (by decide) n.toInt
    · cases hc
      decide
  rw [Reader.integerOfLine_encode hword, Numeral.word?_eq_some_iff.mpr (Numeral.spells_ofInt _)]
  rfl

theorem Numeral.lineEnd_not_mem_encode (n : Int64) :
    Bytes.lineEnd ∉ Bytes.encode (ofWord n) := by
  rw [Bytes.encode_eq, ofWord, String.toList_ofList, List.mem_flatMap]
  rintro ⟨c, hc, hb⟩
  exact forall_mem_ofInt (p := fun c => Bytes.lineEnd ∉ String.utf8EncodeChar c) (by decide)
    (by decide) n.toInt c hc hb

/-! ### Assignments -/

/-- An assignment of a number is read as the kinds that the statement is written with. -/
theorem reads_assignment {x : String} (hx : IsName x) (n : Int64) :
    Reads false (ofText (x ++ " = " ++ Numeral.ofWord n ++ ";").toList)
      ((Node.assign x (.number n)).kinds.flatMap TokenKind.written) := by
  have hend : Reads false (ofText []) [] := by
    rw [ofText]
    exact .nil
  have hsemicolon := reads_source (k := .mark .semicolon) trivial (.inr .nil) hend false
  have hnumber := reads_number n (fun c hc => by cases hc; decide) hsemicolon false
  have hassign := reads_source_blank (k := .mark .assign) trivial hnumber false
  have hname := reads_source_blank (k := .name x) hx hassign false
  have htext : (x ++ " = " ++ Numeral.ofWord n ++ ";").toList =
      (TokenKind.name x).source ++ ' ' :: ((TokenKind.mark .assign).source ++ ' ' ::
        ((TokenKind.number n).source ++ ((TokenKind.mark .semicolon).source ++ []))) := by
    simp [TokenKind.source, Numeral.ofWord, Mark.spelling]
  rw [htext]
  simpa [Node.kinds] using hname

/-- **One decimal text for all readers.**  The line that is printed for an integer is read as that
integer, and behind the name and the sign of an assignment its text is a literal for it. -/
theorem decimal_read_back (n : Int64) (rest : List UInt8) :
    (Reader.holding (Bytes.encode ((Value.int n).display ++ "\n") ++ rest)).readInteger =
        (.ok n, .holding rest) ∧
      ∀ x name : String, IsName x →
        (Script.mk name (x ++ " = " ++ (Value.int n).display ++ ";")).tree =
          .ok (.block [.assign x (.number n)]) := by
  constructor
  · rw [Value.display, Reader.readInteger_line (Numeral.lineEnd_not_mem_encode n),
      integerOfLine_ofWord]
  · intro x name hx
    have hstatement := (IsStatement.assign hx (.number (n := n))).derives
    have hall := Derives.cons hstatement .nil
    rw [List.append_nil] at hall
    exact Script.tree_eq_ok_iff.mpr ⟨_, reads_assignment hx n, _, hall, rfl⟩

/-- The least integer is read back, though its digits alone are no literal. -/
theorem least_read_back :
    (Reader.holding (Bytes.encode "-9223372036854775808\n")).readInteger =
        (.ok Int64.minValue, .holding []) ∧
      (Script.mk "least" "n = -9223372036854775808;").tree =
        .ok (.block [.assign "n" (.number Int64.minValue)]) := by
  have hdisplay : (Value.int Int64.minValue).display = "-9223372036854775808" := by
    decide +kernel
  have h := decimal_read_back Int64.minValue []
  rw [hdisplay, List.append_nil] at h
  exact ⟨h.1, h.2 "n" "least" (by decide)⟩

end Treewalk
