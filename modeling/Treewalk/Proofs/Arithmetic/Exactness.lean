import Treewalk.Proofs.Arithmetic.Terms
import Treewalk.Proofs.Evaluation.Agreement

/-!
# Arithmetic — Where words are exact

Sums, differences and products of words agree with those of all integers up to a multiple of
`2 * Numeral.bound`, so they are exact wherever the result is a word, even if the literal
`Numeral.bound` was taken for the least word on the way.  A quotient and a remainder are not: they
take the sign of the least word along.

* `Operator.apply_excess_iff`: which divisors do not show that the dividend has the wrong sign.
* `script_exact_iff`: the parts of a term are exact if and only if no division of the literal
  `Numeral.bound` has another divisor, and then the script binds its name to the exact integer.
* `least_word_halved`: half of `Numeral.bound` is subtracted with the wrong sign.
-/

namespace Treewalk

open Grammar Treewalk.Symbol

/-! ### Words -/

/-- The integer is a word. -/
def IsWord (v : Int) : Prop := -(Numeral.bound : Int) ≤ v ∧ v < Numeral.bound

instance (v : Int) : Decidable (IsWord v) := inferInstanceAs (Decidable (_ ∧ _))

theorem IsWord.toInt_ofInt {v : Int} (h : IsWord v) : (Int64.ofInt v).toInt = v :=
  Int64.toInt_ofInt_of_le h.1 h.2

/-- A word is its own negative only if it is zero or the least. -/
theorem ofInt_neg_eq_iff {v : Int} (h : IsWord v) :
    Int64.ofInt (-v) = .ofInt v ↔ v = 0 ∨ v = -(Numeral.bound : Int) := by
  constructor
  · intro heq
    by_cases hleast : v = -(Numeral.bound : Int)
    · exact .inr hleast
    have hneg : IsWord (-v) := by
      have h₁ := h.1
      have h₂ := h.2
      unfold IsWord
      omega
    have hv := congrArg Int64.toInt heq
    rw [hneg.toInt_ofInt, h.toInt_ofInt] at hv
    exact .inl (by omega)
  · rintro (rfl | rfl) <;> decide

/-! ### Operators -/

namespace Operator

/-- The operator divides. -/
def divides : Operator → Bool
  | div | mod => true
  | _ => false

/-- On words, an operator is the exact one, cut down to a word. -/
theorem apply_eq_exact {op : Operator} {a b : Int64} (h : op.divides = true → b.toInt ≠ 0) :
    op.apply a b = .ok (.ofInt (op.exact a.toInt b.toInt)) := by
  cases op with
  | add => exact Yields.add.apply
  | sub => exact Yields.sub.apply
  | mul => exact Yields.mul.apply
  | div => exact (Yields.div (h rfl)).apply
  | mod => exact (Yields.mod (h rfl)).apply
  | greater =>
      by_cases hlt : b.toInt < a.toInt <;>
        simp [apply, exact, Value.ofBool, Int64.lt_iff_toInt_lt, hlt]
  | less =>
      by_cases hlt : a.toInt < b.toInt <;>
        simp [apply, exact, Value.ofBool, Int64.lt_iff_toInt_lt, hlt]
  | equal =>
      by_cases heq : a.toInt = b.toInt
      · simp [apply, exact, Value.ofBool, Int64.toInt_inj.mp heq]
      · simp [apply, exact, Value.ofBool, heq, mt Int64.toInt_inj.mpr heq]

/-- An operator is exact on integers that are words. -/
theorem apply_ofInt {op : Operator} {a b : Int} (ha : IsWord a) (hb : IsWord b)
    (h : op.divides = true → b ≠ 0) :
    op.apply (.ofInt a) (.ofInt b) = .ok (.ofInt (op.exact a b)) := by
  rw [apply_eq_exact (by rwa [hb.toInt_ofInt]), ha.toInt_ofInt, hb.toInt_ofInt]

/-- A difference and a product are exact on all integers, up to what a word does not hold. -/
theorem apply_sub_ofInt (a b : Int) :
    sub.apply (.ofInt a) (.ofInt b) = .ok (.ofInt (sub.exact a b)) := by
  rw [exact, Int64.ofInt_sub, apply]

theorem apply_mul_ofInt (a b : Int) :
    mul.apply (.ofInt a) (.ofInt b) = .ok (.ofInt (mul.exact a b)) := by
  rw [exact, Int64.ofInt_mul, apply]

/-- The divisors that make the same of the least word as of its size. -/
def Spares : Operator → Int → Prop
  | div, b => b = -1
  | mod, b => b ∣ Numeral.bound
  | _, _ => True

end Operator

/-- The size of the least word, divided by a word, is that size again only by minus one. -/
theorem tdiv_bound_iff {b : Int} (hb : IsWord b) (h0 : b ≠ 0) :
    ((Numeral.bound : Int).tdiv b = 0 ∨ (Numeral.bound : Int).tdiv b = -(Numeral.bound : Int)) ↔
      b = -1 := by
  have habs : ((Numeral.bound : Int).tdiv b).natAbs = Numeral.bound / b.natAbs :=
    Int.natAbs_tdiv _ _
  have hle : b.natAbs ≤ Numeral.bound := by
    have h₁ := hb.1
    have h₂ := hb.2
    omega
  constructor
  · rintro (h | h)
    · rw [h] at habs
      have := (Nat.div_eq_zero_iff.mp habs.symm)
      omega
    · rw [h, Int.natAbs_neg, Int.natAbs_natCast] at habs
      -- A quotient as large as the dividend has a divisor of size one.
      have hone : b.natAbs = 1 := by
        by_cases h1 : b.natAbs ≤ 1
        · omega
        · have hlt := Nat.div_lt_self (n := Numeral.bound) (by decide) (Nat.not_le.mp h1)
          omega
      rcases Int.natAbs_eq b with hb | hb
      · rw [hb, hone] at h
        exact absurd h (by decide)
      · omega
  · rintro rfl
    exact .inr (by decide)

/-- A division of `Numeral.bound` that takes it for the least word is exact only if the divisor
spares it. -/
theorem Operator.apply_excess_iff {op : Operator} {b : Int} (hop : op.divides = true)
    (hb : IsWord b) (h0 : b ≠ 0) (hv : IsWord (op.exact Numeral.bound b)) :
    op.apply (.ofInt Numeral.bound) (.ofInt b) = .ok (.ofInt (op.exact Numeral.bound b)) ↔
      op.Spares b := by
  have hleast : (Int64.ofInt Numeral.bound).toInt = -(Numeral.bound : Int) := by decide
  rw [apply_eq_exact (by rw [hb.toInt_ofInt]; exact fun _ => h0), hb.toInt_ofInt, hleast,
    Except.ok.injEq]
  cases op with
  | div =>
      simp only [exact] at hv ⊢
      rw [Int.neg_tdiv, ofInt_neg_eq_iff hv]
      exact tdiv_bound_iff hb h0
  | mod =>
      simp only [exact] at hv ⊢
      rw [Int.neg_tmod, ofInt_neg_eq_iff hv]
      have hnonneg := Int.tmod_nonneg b (Int.natCast_nonneg Numeral.bound)
      constructor
      · rintro (h | h)
        · exact Int.dvd_of_tmod_eq_zero h
        · rw [h] at hnonneg
          exact absurd hnonneg (by decide)
      · exact fun h => .inl (Int.tmod_eq_zero_of_dvd h)
  | _ => cases hop

/-! ### The word of a term -/

namespace Term

/-- The word that the tree of a term evaluates to. -/
def word (names : Table) : Term → Except Fault Int64
  | literal n => .ok (.ofNat n)
  | name x => .ok (names.read x).toInt
  | minus t => (t.word names).map (0 - ·)
  | operation op l r =>
    match l.word names, r.word names with
    | .ok a, .ok b => op.apply a b
    | .error f, _ => .error f
    | .ok _, .error f => .error f

/-- The tree of a term whose names hold integers evaluates to its word, and changes nothing. -/
theorem evaluates {s : State} {t : Term}
    (hn : ∀ x, .name x ∈ t.parts → ∃ n, s.table.read x = .int n) :
    Evaluates (.node t.node) s ((t.word s.table).map .int) s := by
  induction t with
  | literal n => exact .number
  | name x =>
      obtain ⟨n, hx⟩ := hn x (mem_parts_self _)
      have h := Evaluates.var (x := x) (s := s)
      rw [hx] at h
      rw [word, hx]
      exact h
  | minus t ih =>
      have ih := ih fun x hx => hn x (mem_parts_trans (inner_mem_parts t) hx)
      by_cases hnum : ∃ n, t.node = .number n
      · obtain ⟨n, hnum⟩ := hnum
        -- A minus sign before a number is folded into the tree.
        rw [hnum] at ih
        have hw := (ih.unique .number).1
        rw [node, hnum, word]
        cases ht : t.word s.table with
        | error f => rw [ht] at hw; cases hw
        | ok w =>
            rw [ht] at hw
            cases hw
            rw [Node.negate, Except.map, Int64.zero_sub]
            exact .number
      · have hne : ∀ n, t.node ≠ .number n := fun n h => hnum ⟨n, h⟩
        rw [node, Node.negate_of_ne hne, word]
        cases ht : t.word s.table with
        | error f =>
            rw [ht] at ih
            exact .rightFault .number ih
        | ok w =>
            rw [ht] at ih
            exact .binary .number ih (Operator.yields_apply .sub 0 w)
  | operation op l r ihl ihr =>
      have ihl := ihl fun x hx => hn x (mem_parts_trans (left_mem_parts op l r) hx)
      have ihr := ihr fun x hx => hn x (mem_parts_trans (right_mem_parts op l r) hx)
      rw [node, word]
      cases hl : l.word s.table with
      | error f =>
          rw [hl] at ihl
          exact .leftFault ihl
      | ok a =>
          rw [hl] at ihl
          cases hr : r.word s.table with
          | error f =>
              rw [hr] at ihr
              exact .rightFault ihl ihr
          | ok b =>
              rw [hr] at ihr
              exact .binary ihl ihr (Operator.yields_apply op a b)

/-! ### Exact terms -/

/-- No divisor is zero, and every part is a word, the literal that is none apart. -/
def InRange (names : Table) (t : Term) : Prop :=
  (∀ u ∈ t.parts, u ≠ excess → IsWord (u.value names)) ∧
    ∀ op l r, .operation op l r ∈ t.parts → op.divides = true → r.value names ≠ 0

/-- Every division of the literal that is no word has a divisor that spares it. -/
def Spared (names : Table) (t : Term) : Prop :=
  ∀ op r, .operation op excess r ∈ t.parts → op.Spares (r.value names)

/-- The tree of the term evaluates to the integer that the term stands for. -/
def Exact (s : State) (t : Term) : Prop :=
  ∃ fuel w, evaluate fuel t.node s = some (.ok (.int w), s) ∧ w.toInt = t.value s.table

theorem InRange.part {names : Table} {t u : Term} (h : t.InRange names) (hu : u ∈ t.parts) :
    u.InRange names :=
  ⟨fun v hv => h.1 v (mem_parts_trans hu hv),
    fun op l r hv => h.2 op l r (mem_parts_trans hu hv)⟩

theorem Spared.part {names : Table} {t u : Term} (h : t.Spared names) (hu : u ∈ t.parts) :
    u.Spared names :=
  fun op r hv => h op r (mem_parts_trans hu hv)

theorem word_operation {names : Table} {op : Operator} {l r : Term} {a b : Int64}
    (hl : l.word names = .ok a) (hr : r.word names = .ok b) :
    (operation op l r).word names = op.apply a b := by
  rw [word, hl, hr]

/-- The literal that is no word does not stand on both sides of an operator. -/
theorem Seated.ne_excess {op : Operator} {l r : Term} (h : (operation op l r).Seated)
    (hl : l = excess) : r ≠ excess := by
  intro hr
  have h4 := h.1 hl
  rw [h.2 hr] at h4
  exact absurd h4 (by decide)

/-- A spared term has the word of its value.  The induction keeps this of the literal that is no
word as well, whose word is the least one. -/
theorem word_eq_value {names : Table} {t : Term} (hseat : ∀ u ∈ t.parts, u.Seated)
    (hrange : t.InRange names) (hspared : t.Spared names) :
    t.word names = .ok (.ofInt (t.value names)) := by
  induction t with
  | literal n => rw [word, value, Int64.ofInt_eq_ofNat]
  | name x => rw [word, value, Int64.ofInt_toInt]
  | minus t ih =>
      have ht := inner_mem_parts t
      rw [word, ih (fun u hu => hseat u (mem_parts_trans ht hu)) (hrange.part ht)
        (hspared.part ht), value, Int64.ofInt_sub]
      rfl
  | operation op l r ihl ihr =>
      have hlmem := left_mem_parts op l r
      have hrmem := right_mem_parts op l r
      have hself := mem_parts_self (operation op l r)
      have hl := ihl (fun u hu => hseat u (mem_parts_trans hlmem hu)) (hrange.part hlmem)
        (hspared.part hlmem)
      have hr := ihr (fun u hu => hseat u (mem_parts_trans hrmem hu)) (hrange.part hrmem)
        (hspared.part hrmem)
      have hseated := hseat _ hself
      have hzero := hrange.2 op l r hself
      rw [word_operation hl hr, value]
      by_cases hle : l = excess
      -- On its left the literal meets a product, which is exact, or a division that spares it.
      · have hrword := hrange.1 r hrmem (hseated.ne_excess hle)
        have hvalue : IsWord (op.exact (l.value names) (r.value names)) :=
          hrange.1 _ hself fun h => nomatch h
        have hop := hseated.1 hle
        subst hle
        cases op with
        | mul => exact Operator.apply_mul_ofInt _ _
        | div =>
            exact (Operator.apply_excess_iff rfl hrword (hzero rfl) hvalue).mpr
              (hspared .div r hself)
        | mod =>
            exact (Operator.apply_excess_iff rfl hrword (hzero rfl) hvalue).mpr
              (hspared .mod r hself)
        | _ => cases hop
      · by_cases hre : r = excess
        · rw [hseated.2 hre]
          exact Operator.apply_sub_ofInt _ _
        · exact Operator.apply_ofInt (hrange.1 l hlmem hle) (hrange.1 r hrmem hre) hzero

/-- A term whose value is a word is exact if that is the word it evaluates to. -/
theorem exact_iff {s : State} {t : Term}
    (hn : ∀ x, .name x ∈ t.parts → ∃ n, s.table.read x = .int n)
    (hv : IsWord (t.value s.table)) :
    t.Exact s ↔ t.word s.table = .ok (.ofInt (t.value s.table)) := by
  have hev := t.evaluates hn
  constructor
  · rintro ⟨fuel, w, he, hw⟩
    have hr := (hev.unique (evaluates_of_evaluate he)).1
    cases ht : t.word s.table with
    | error f => rw [ht] at hr; cases hr
    | ok v =>
        rw [ht] at hr
        cases hr
        rw [← hw, Int64.ofInt_toInt]
  · intro hw
    rw [hw] at hev
    obtain ⟨fuel, he⟩ := hev.exists_evaluate
    exact ⟨fuel, _, he, hv.toInt_ofInt⟩

/-- If all parts are exact, every division of the literal that is no word is spared. -/
theorem spared_of_exact {s : State} {t : Term} (hseat : ∀ u ∈ t.parts, u.Seated)
    (hn : ∀ x, .name x ∈ t.parts → ∃ n, s.table.read x = .int n) (hrange : t.InRange s.table)
    (h : ∀ u ∈ t.parts, u ≠ excess → u.Exact s) : t.Spared s.table := by
  intro op r hmem
  have hword : ∀ u ∈ t.parts, u ≠ excess → u.word s.table = .ok (.ofInt (u.value s.table)) :=
    fun u hu hne => (exact_iff (fun x hx => hn x (mem_parts_trans hu hx))
      (hrange.1 u hu hne)).mp (h u hu hne)
  have hrmem := mem_parts_trans hmem (right_mem_parts op excess r)
  have hne := (hseat _ hmem).ne_excess rfl
  have hdiv : op.divides = true → op.Spares (r.value s.table) := by
    intro hop
    have hvalue := hrange.1 _ hmem fun h => nomatch h
    refine (Operator.apply_excess_iff hop (hrange.1 r hrmem hne) (hrange.2 op _ r hmem hop)
      hvalue).mp ?_
    -- The divisor is not the literal itself, so it is exact like the quotient.
    have heq := hword _ hmem fun h => nomatch h
    rwa [word_operation (a := .ofInt Numeral.bound) rfl (hword r hrmem hne)] at heq
  cases op with
  | div => exact hdiv rfl
  | mod => exact hdiv rfl
  | _ => trivial

end Term

/-! ### Scripts -/

/-- **When a script is exact.**  The script assigns an expression without texts, whose names hold
integers, and over all integers every part of it but the literal `Numeral.bound` is a word and no
divisor is zero.  Then the parts of the expression evaluate to what they stand for if and only if
every division of that literal has a divisor that spares it; and if so, the script binds its name
to the integer that the expression stands for. -/
theorem script_exact_iff {script : Script} {root : Node} {x : String} {ys : List Symbol}
    {t : Term} {s : State} (htext : ofText script.text.toList = assignment x ys)
    (hformula : Formula .equality ys t) (hroot : script.tree = .ok root)
    (hnames : ∀ y, .name y ∈ t.parts → ∃ n, s.table.read y = .int n)
    (hrange : t.InRange s.table) :
    ((∀ u ∈ t.parts, u ≠ .excess → u.Exact s) ↔ t.Spared s.table) ∧
      (t.Spared s.table → ∃ fuel w, w.toInt = t.value s.table ∧
        evaluate fuel root s =
          some (.ok .unit, { s with table := s.table.assign x (.int w) })) := by
  obtain ⟨rfl, hseat, hne⟩ := hformula.tree htext hroot
  have hexact : t.Spared s.table → ∀ u ∈ t.parts, u ≠ .excess → u.Exact s := by
    intro hspared u hu hue
    refine (Term.exact_iff (fun y hy => hnames y (Term.mem_parts_trans hu hy))
      (hrange.1 u hu hue)).mpr ?_
    exact Term.word_eq_value (fun v hv => hseat v (Term.mem_parts_trans hu hv))
      (hrange.part hu) (hspared.part hu)
  refine ⟨⟨Term.spared_of_exact hseat hnames hrange, hexact⟩, fun hspared => ?_⟩
  obtain ⟨_, w, he, hw⟩ := hexact hspared t t.mem_parts_self hne
  have hrun : Evaluates (.node (.block [.assign x t.node])) s (.ok .unit) _ :=
    .block (.cons (.assign (evaluates_of_evaluate he)) .nil)
  obtain ⟨fuel, hf⟩ := hrun.exists_evaluate
  exact ⟨fuel, w, hw, hf⟩

/-- `x = -1 - 9223372036854775808 / -1;` binds `x` to the greatest word. -/
theorem greatest_word_by_division :
    ∃ root fuel w,
      Script.tree ⟨"script", "x = -1 - 9223372036854775808 / -1;"⟩ = .ok root ∧
        w.toInt = 9223372036854775807 ∧
        evaluate fuel root (.start (.script [])) =
          some (.ok .unit, (State.start (.script [])).assign "x" (.int w)) := by
  let ys : List Symbol := [.kind (.mark .minus), .digits ['1'], .kind (.mark .minus),
    .digits "9223372036854775808".toList, .kind (.mark .slash), .kind (.mark .minus),
    .digits ['1']]
  have htext : ofText (Script.text ⟨"script", "x = -1 - 9223372036854775808 / -1;"⟩).toList =
      assignment "x" ys := by decide +kernel
  have hformula : Formula .equality ys (.operation .sub (.minus (.literal 1))
      (.operation .div .excess (.minus (.literal 1)))) :=
    .tighter (.tighter (.operation .sub (.tighter (.tighter (.minus (.tighter .literal))))
      (.operation .div (.tighter (.tighter .literal)) (.minus (.tighter .literal)))))
  have hrange : Term.InRange (State.start (.script [])).table (.operation .sub
      (.minus (.literal 1)) (.operation .div .excess (.minus (.literal 1)))) := by
    refine ⟨by decide, fun op l r hmem _ => ?_⟩
    simp [Term.parts, Term.excess] at hmem
    rcases hmem with ⟨rfl, rfl, rfl⟩ | ⟨rfl, rfl, rfl⟩ <;> decide
  have hreads : Reads false ys [.mark .minus, .number 1, .mark .minus, .number Int64.minValue,
      .mark .slash, .mark .minus, .number 1] :=
    .cons rfl (.cons rfl (.cons rfl (.cons rfl (.cons rfl (.cons rfl (.cons rfl .nil))))))
  have hroot : Script.tree ⟨"script", "x = -1 - 9223372036854775808 / -1;"⟩ = .ok _ :=
    hformula.tree_of_reads htext hreads
  have h := script_exact_iff htext hformula hroot (by simp [Term.parts, Term.excess]) hrange
  obtain ⟨fuel, w, hw, he⟩ := h.2 fun op r hmem => by
    simp [Term.parts, Term.excess] at hmem
    obtain ⟨rfl, rfl⟩ := hmem
    rfl
  exact ⟨_, fuel, w, hroot, hw, he⟩

/-- `x = 0 - 9223372036854775808 / 2;` has a tree, and over all integers nothing in it is out of
range; yet `x` is bound to the integer of the wrong sign. -/
theorem least_word_halved :
    let t : Term := .operation .sub (.literal 0) (.operation .div .excess (.literal 2))
    let s := State.start (.script [])
    ∃ ys root,
      ofText "x = 0 - 9223372036854775808 / 2;".toList = assignment "x" ys ∧
        Formula .equality ys t ∧
        Script.tree ⟨"script", "x = 0 - 9223372036854775808 / 2;"⟩ = .ok root ∧
        t.InRange s.table ∧ t.value s.table = -4611686018427387904 ∧
        ∃ fuel, evaluate fuel root s =
          some (.ok .unit, s.assign "x" (.int 4611686018427387904)) := by
  intro t s
  let ys : List Symbol := [.digits ['0'], .kind (.mark .minus),
    .digits "9223372036854775808".toList, .kind (.mark .slash), .digits ['2']]
  have htext : ofText (Script.text ⟨"script", "x = 0 - 9223372036854775808 / 2;"⟩).toList =
      assignment "x" ys := by decide +kernel
  have hformula : Formula .equality ys t :=
    .tighter (.tighter (.operation .sub (.tighter (.tighter (.tighter .literal)))
      (.operation .div (.tighter (.tighter .literal)) (.tighter .literal))))
  have hreads : Reads false ys [.number 0, .mark .minus, .number Int64.minValue, .mark .slash,
      .number 2] :=
    .cons rfl (.cons rfl (.cons rfl (.cons rfl (.cons rfl .nil))))
  have hrange : t.InRange s.table := by
    refine ⟨by decide, fun op l r hmem _ => ?_⟩
    simp [t, Term.parts, Term.excess] at hmem
    rcases hmem with ⟨rfl, rfl, rfl⟩ | ⟨rfl, rfl, rfl⟩ <;> decide
  exact ⟨ys, _, htext, hformula, hformula.tree_of_reads htext hreads, hrange, by decide, 20, rfl⟩

end Treewalk
