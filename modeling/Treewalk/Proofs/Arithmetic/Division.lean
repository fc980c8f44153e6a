import Mathlib.Data.Rat.Floor
import Treewalk.Proofs.Arithmetic.Exactness

/-!
# Arithmetic — Quotients and remainders of words

A quotient is cut off toward zero and a remainder has the sign of the dividend.  The quotient of two
words is a word again, except that the least word has no negative: by minus one it comes out as
itself.  Even there quotient and remainder match, because a product wraps around as well.

* `truncate_div`: the rational quotient, cut off toward zero, is the quotient of the integers.
* `isWord_tdiv_iff`: which quotient of words is no word.
* `Operator.div_exact_iff`: every other quotient of words is exact.
* `Int64.div_mul_add_mod`: quotient and remainder match for every pair of words.
* `division_and_remainder_match`: what holds of both for every divisor but zero.
-/

namespace Treewalk

/-! ### Cutting off -/

/-- The integer next to a rational on the side of zero. -/
def truncate (x : ℚ) : Int := if 0 ≤ x then ⌊x⌋ else ⌈x⌉

theorem truncate_neg (x : ℚ) : truncate (-x) = -truncate x := by
  rcases lt_trichotomy x 0 with hx | rfl | hx
  · rw [truncate, truncate, if_pos (by linarith), if_neg (by linarith), Int.floor_neg]
  · simp [truncate]
  · rw [truncate, truncate, if_neg (by linarith), if_pos (by linarith), Int.ceil_neg]

theorem truncate_div_natCast (m n : Nat) : truncate ((m : Int) / (n : Int)) = (m : Int).tdiv n := by
  have hx : (0 : ℚ) ≤ (m : Int) / (n : Int) := by positivity
  rw [truncate, if_pos hx, Int.cast_natCast n, Rat.floor_intCast_div_natCast,
    Int.tdiv_eq_ediv_of_nonneg (Int.natCast_nonneg m)]

/-- The rational quotient of integers, cut off toward zero, is their quotient as integers. -/
theorem truncate_div (a b : Int) : truncate (a / b) = a.tdiv b := by
  have hdividend : ∀ n : Nat, truncate (a / (n : Int)) = a.tdiv n := by
    intro n
    obtain ⟨m, rfl | rfl⟩ := a.eq_nat_or_neg
    · exact truncate_div_natCast m n
    · rw [Int.cast_neg, neg_div, truncate_neg, truncate_div_natCast, Int.neg_tdiv]
  obtain ⟨n, rfl | rfl⟩ := b.eq_nat_or_neg
  · exact hdividend n
  · rw [Int.cast_neg, div_neg, truncate_neg, hdividend, Int.tdiv_neg]

/-! ### Quotients of words -/

theorem isWord_toInt (w : Int64) : IsWord w.toInt := ⟨w.le_toInt, w.toInt_lt⟩

theorem toInt_eq_least_iff {w : Int64} :
    w.toInt = -(Numeral.bound : Int) ↔ w = Int64.minValue := by
  rw [← Int64.toInt_inj]
  rfl

/-- A quotient of words is a word, but for that of the least word by minus one. -/
theorem isWord_tdiv_iff {a b : Int} (ha : IsWord a) (hb : IsWord b) (h0 : b ≠ 0) :
    IsWord (a.tdiv b) ↔ ¬ (a = -(Numeral.bound : Int) ∧ b = -1) := by
  constructor
  · rintro hq ⟨rfl, rfl⟩
    exact absurd hq (by decide)
  · intro hne
    have hlo := ha.1
    have hhi := ha.2
    have hle : (a.tdiv b).natAbs ≤ a.natAbs := Int.natAbs_tdiv_le_natAbs a b
    -- No quotient is larger than its dividend, so only the size of the least word is left.
    have hlarge : a.tdiv b ≠ Numeral.bound := by
      intro hq
      have hleast : a = -(Numeral.bound : Int) := by omega
      rw [hleast, Int.neg_tdiv] at hq
      have hone : b = -1 := (tdiv_bound_iff hb h0).mp (.inr (by omega))
      exact hne ⟨hleast, hone⟩
    exact ⟨by omega, by omega⟩

namespace Operator

/-- A quotient of words is exact, but for that of the least word by minus one. -/
theorem div_exact_iff {a b q : Int64} (hb : b ≠ 0) (hq : div.apply a b = .ok q) :
    q.toInt = truncate (a.toInt / b.toInt) ↔ ¬ (a = Int64.minValue ∧ b = -1) := by
  have h0 : b.toInt ≠ 0 := mt Int64.toInt_eq_zero_iff.mp hb
  obtain rfl : q = .ofInt (a.toInt.tdiv b.toInt) :=
    Except.ok.inj (hq.symm.trans (apply_eq_exact fun _ => h0))
  have hone : b.toInt = -1 ↔ b = -1 := by
    rw [← Int64.toInt_inj]
    rfl
  rw [truncate_div, ← toInt_eq_least_iff, ← hone,
    ← isWord_tdiv_iff (isWord_toInt a) (isWord_toInt b) h0]
  constructor
  · exact fun h => h ▸ isWord_toInt _
  · exact IsWord.toInt_ofInt

end Operator

/-! ### Quotient and remainder -/

/-- Words take over every law of sums and products, so that this one has no exception. -/
theorem Int64.div_mul_add_mod (a b : Int64) : a / b * b + a % b = a :=
  calc a / b * b + a % b
      = .ofInt (a.toInt.tdiv b.toInt) * .ofInt b.toInt + .ofInt (a.toInt.tmod b.toInt) := by
        rw [Int64.ofInt_toInt, Int64.div_eq_ofInt_tdiv, Int64.mod_eq_ofInt_tmod]
    _ = .ofInt (a.toInt.tdiv b.toInt * b.toInt + a.toInt.tmod b.toInt) := by
        rw [Int64.ofInt_add, Int64.ofInt_mul]
    _ = a := by rw [Int.tdiv_mul_add_tmod, Int64.ofInt_toInt]

/-- A remainder is smaller than the divisor. -/
theorem abs_tmod_lt (a : Int) {b : Int} (h : b ≠ 0) : |a.tmod b| < |b| := by
  rw [Int.abs_eq_natAbs, Int.abs_eq_natAbs, Int.natAbs_tmod, Int.ofNat_lt]
  exact Nat.mod_lt _ (Int.natAbs_pos.mpr h)

/-- A remainder has the sign of the dividend, if it has one. -/
theorem tmod_eq_zero_or_sign_eq (a b : Int) : a.tmod b = 0 ∨ (a.tmod b).sign = a.sign := by
  rw [← Int.sign_eq_zero_iff_zero, Int.sign_tmod]
  split
  · exact .inl rfl
  · exact .inr rfl

/-- **Quotient and remainder match.**  By every divisor but zero both exist, and the divisor times
the quotient, with the remainder, is the dividend again.  The remainder is smaller than the divisor
and is zero or has the sign of the dividend.  The quotient is the exact one, cut off toward zero,
except that the least word by minus one is the least word, without a remainder. -/
theorem division_and_remainder_match {a b : Int64} (hb : b ≠ 0) :
    ∃ q r : Int64,
      Operator.div.apply a b = .ok q ∧ Operator.mod.apply a b = .ok r ∧
      q * b + r = a ∧
      |r.toInt| < |b.toInt| ∧
      (r.toInt = 0 ∨ r.toInt.sign = a.toInt.sign) ∧
      (q.toInt = truncate (a.toInt / b.toInt) ↔ ¬ (a = Int64.minValue ∧ b = -1)) ∧
      (a = Int64.minValue → b = -1 → q = Int64.minValue ∧ r = 0) := by
  have h0 : b.toInt ≠ 0 := mt Int64.toInt_eq_zero_iff.mp hb
  have hdiv : Operator.div.apply a b = .ok (a / b) := if_neg hb
  have hmod : Operator.mod.apply a b = .ok (a % b) := if_neg hb
  refine ⟨a / b, a % b, hdiv, hmod, Int64.div_mul_add_mod a b, ?_, ?_,
    Operator.div_exact_iff hb hdiv, ?_⟩
  · rw [Int64.toInt_mod]
    exact abs_tmod_lt a.toInt h0
  · rw [Int64.toInt_mod]
    exact tmod_eq_zero_or_sign_eq a.toInt b.toInt
  · rintro rfl rfl
    decide

/-- The least word by minus one is the least word, which is not the exact quotient; times minus one
it is the least word again. -/
theorem least_word_by_minus_one :
    ∃ q r : Int64,
      Operator.div.apply Int64.minValue (-1) = .ok q ∧
      Operator.mod.apply Int64.minValue (-1) = .ok r ∧
      q = Int64.minValue ∧ r = 0 ∧ q * -1 + r = Int64.minValue ∧
      q.toInt ≠ truncate (Int64.minValue.toInt / (-1 : Int64).toInt) := by
  obtain ⟨q, r, hq, hr, hback, -, -, hexact, hleast⟩ :=
    division_and_remainder_match (a := Int64.minValue) (b := -1) (by decide)
  obtain ⟨hqleast, hrzero⟩ := hleast rfl rfl
  exact ⟨q, r, hq, hr, hqleast, hrzero, hback, fun h => hexact.mp h ⟨rfl, rfl⟩⟩

/-- Below zero the quotient is cut off and not rounded down, and the remainder is below zero. -/
example : Operator.div.apply (-7) 2 = .ok (-3) ∧ Operator.mod.apply (-7) 2 = .ok (-1) := by decide

end Treewalk
