import Mathlib.Data.Int.ModEq
import Treewalk.Proofs.Arithmetic.Exactness

/-!
# Arithmetic — Rings of words

Sums, differences and products of words wrap around, and so does a minus sign; none of them looks at
the sign of a word.  An expression of nothing else therefore has one word, however often it runs
over on the way: the one that is congruent to the integer that the expression stands for.  This
holds of the literal `Numeral.bound` as well, which is taken for the least word.

* `eq_ofInt_iff`: exactly one word is congruent to an integer.
* `Evaluates.negate`: a minus sign negates, whether it is folded into a number or not.
* `Term.evaluates_ring`: the tree of such a term evaluates to the word of its value.
* `ring_script_congruent`: the same of a script that assigns the term.
-/

namespace Treewalk

open Grammar Treewalk.Symbol

/-! ### Congruence -/

/-- Exactly one word is congruent to an integer: the one that the integer is cut down to. -/
theorem eq_ofInt_iff {w : Int64} {v : Int} : w = .ofInt v ↔ w.toInt ≡ v [ZMOD 2 ^ 64] := by
  have hword : ∀ u : Int, u.bmod (2 ^ 64) % 2 ^ 64 = u % 2 ^ 64 := fun u => Int.bmod_emod
  constructor
  · rintro rfl
    rw [Int64.toInt_ofInt]
    exact hword v
  · intro h
    have hmod : w.toInt.bmod (2 ^ 64) = v.bmod (2 ^ 64) := by
      rw [← Int.emod_bmod w.toInt, ← Int.emod_bmod v]
      exact congrArg (Int.bmod · (2 ^ 64)) h
    rw [eq_comm, Int64.ofInt_eq_iff_bmod_eq_toInt, ← hmod, ← Int64.ofInt_eq_iff_bmod_eq_toInt,
      Int64.ofInt_toInt]

/-! ### Terms of sums, differences and products -/

/-- The operator is that of a ring. -/
def Operator.isRing : Operator → Bool
  | add | sub | mul => true
  | _ => false

/-- The term has sums, differences, products and minus signs only. -/
def Term.isRing : Term → Bool
  | literal _ | name _ => true
  | minus t => t.isRing
  | operation op l r => op.isRing && l.isRing && r.isRing

/-- A name stands for the integer that it holds, and for zero if it holds none. -/
theorem Term.value_name (names : Table) (y : String) :
    (name y).value names =
      match names.get? y with
      | some (.int n) => n.toInt
      | _ => 0 := by
  rw [value, Table.read]
  cases names.get? y with
  | none => rfl
  | some v => cases v <;> rfl

/-- Such an operator commutes with cutting down to words. -/
theorem Operator.apply_ring {op : Operator} (h : op.isRing = true) (a b : Int) :
    op.apply (.ofInt a) (.ofInt b) = .ok (.ofInt (op.exact a b)) := by
  cases op with
  | add => rw [exact, Int64.ofInt_add, apply]
  | sub => exact apply_sub_ofInt a b
  | mul => exact apply_mul_ofInt a b
  | _ => cases h

/-- A minus sign negates the integer of what stands behind it, folded or not. -/
theorem Evaluates.negate {e : Node} {s s' : State} {v : Value}
    (h : Evaluates (.node e) s (.ok v) s') :
    ∃ w : Value, Evaluates (.node e.negate) s (.ok w) s' ∧ w.toInt = 0 - v.toInt := by
  by_cases hnum : ∃ n, e = .number n
  · obtain ⟨n, rfl⟩ := hnum
    cases h
    exact ⟨.int (-n), .number, (Int64.zero_sub n).symm⟩
  · rw [Node.negate_of_ne fun n hn => hnum ⟨n, hn⟩]
    exact ⟨.int (0 - v.toInt), .binary .number h (Operator.yields_apply .sub 0 v.toInt), rfl⟩

/-- **The tree of the term evaluates to the word of its value**, and changes nothing. -/
theorem Term.evaluates_ring {t : Term} (h : t.isRing = true) (s : State) :
    ∃ v : Value, Evaluates (.node t.node) s (.ok v) s ∧ v.toInt = .ofInt (t.value s.table) := by
  induction t with
  | literal n => exact ⟨.int (.ofNat n), .number, (Int64.ofInt_eq_ofNat ..).symm⟩
  | name x => exact ⟨s.table.read x, .var, (Int64.ofInt_toInt _).symm⟩
  | minus t ih =>
      obtain ⟨v, hv, hint⟩ := ih h
      obtain ⟨w, hw, hneg⟩ := hv.negate
      refine ⟨w, hw, ?_⟩
      rw [hneg, hint, value, Int64.ofInt_sub]
      rfl
  | operation op l r ihl ihr =>
      simp only [isRing, Bool.and_eq_true] at h
      obtain ⟨⟨hop, hl⟩, hr⟩ := h
      obtain ⟨a, ha, hint⟩ := ihl hl
      obtain ⟨b, hb, hint'⟩ := ihr hr
      have happ := Operator.apply_ring hop (l.value s.table) (r.value s.table)
      rw [← hint, ← hint'] at happ
      exact ⟨_, .binary ha hb (Operator.apply_eq_iff.mp happ), rfl⟩

/-! ### Scripts -/

/-- **Sums, differences and products are exact up to a multiple of `2 ^ 64`.**  A script that
assigns an expression of numbers, names, minus signs, parentheses and these operators ends without a
fault in every state.  It binds its name to a value that counts as the one word congruent to what
the expression stands for over all integers, where a name stands for the integer that it holds, or
for zero if it holds none. -/
theorem ring_script_congruent {script : Script} {root : Node} {x : String} {ys : List Symbol}
    {t : Term} (htext : ofText script.text.toList = assignment x ys)
    (hformula : Formula .equality ys t) (hring : t.isRing = true)
    (hroot : script.tree = .ok root) (s : State) :
    ∃ v : Value,
      (∃ fuel, evaluate fuel root s =
        some (.ok .unit, { s with table := s.table.assign x v })) ∧
      (∀ w : Int64, w = v.toInt ↔ w.toInt ≡ t.value s.table [ZMOD 2 ^ 64]) ∧
      ∀ y, (Term.name y).value s.table =
        match s.table.get? y with
        | some (.int n) => n.toInt
        | _ => 0 := by
  obtain ⟨rfl, -, -⟩ := hformula.tree htext hroot
  obtain ⟨v, hv, hint⟩ := Term.evaluates_ring hring s
  have hrun : Evaluates (.node (.block [.assign x t.node])) s (.ok .unit) _ :=
    .block (.cons (.assign hv) .nil)
  refine ⟨v, hrun.exists_evaluate, fun w => ?_, Term.value_name s.table⟩
  rw [hint]
  exact eq_ofInt_iff

/-- `x = y - 9223372036854775808 * 3;` leaves the range of words twice and ends at the least of
them, where `y` is a text and counts as zero. -/
theorem least_word_by_product :
    let s := (State.start (.script [])).assign "y" (.text "none")
    ∃ root v,
      Script.tree ⟨"script", "x = y - 9223372036854775808 * 3;"⟩ = .ok root ∧
        (∃ fuel, evaluate fuel root s =
          some (.ok .unit, { s with table := s.table.assign "x" v })) ∧
        v.toInt = Int64.minValue := by
  intro s
  let ys : List Symbol := [.kind (.name "y"), .kind (.mark .minus),
    .digits "9223372036854775808".toList, .kind (.mark .star), .digits ['3']]
  have htext : ofText (Script.text ⟨"script", "x = y - 9223372036854775808 * 3;"⟩).toList =
      assignment "x" ys := by decide +kernel
  have hformula : Formula .equality ys (.operation .sub (.name "y")
      (.operation .mul .excess (.literal 3))) :=
    .tighter (.tighter (.operation .sub (.tighter (.tighter (.tighter .name)))
      (.operation .mul (.tighter (.tighter .literal)) (.tighter .literal))))
  have hreads : Reads false ys [.name "y", .mark .minus, .number Int64.minValue, .mark .star,
      .number 3] :=
    .cons rfl (.cons rfl (.cons rfl (.cons rfl (.cons rfl .nil))))
  have hroot : Script.tree ⟨"script", "x = y - 9223372036854775808 * 3;"⟩ = .ok _ :=
    hformula.tree_of_reads htext hreads
  obtain ⟨v, hrun, hword, -⟩ := ring_script_congruent htext hformula rfl hroot s
  refine ⟨_, v, hroot, hrun, ((hword Int64.minValue).mpr ?_).symm⟩
  decide +kernel

end Treewalk
