import Treewalk.Proofs.Text.Lines

/-!
# Text — Quoted texts

What a quoted text says.  Each character has one of three written forms (`Written`), and no written
form begins another, so the characters can be told apart from left to right:

* `Numeral.digits_inj`: a number has digits of its own.
* `written_append_inj`: a written character and what follows it can be told from their text.
* `quoted_append_inj`: so can a whole quoted text, up to its closing quotation mark.
-/

namespace Treewalk

/-! ### Numerals -/

namespace Numeral

theorem digit_inj : ∀ a < 16, ∀ b < 16, digit a = digit b → a = b := by decide

theorem digits_ne_nil (base n : Nat) : digits base n ≠ [] := by
  rw [digits]
  split <;> simp

/-- **Numbers have different digits.** -/
theorem digits_inj {base : Nat} (hlo : 2 ≤ base) (hhi : base ≤ 16) {m n : Nat}
    (h : digits base m = digits base n) : m = n := by
  -- Two digits at least are not one.
  have htwo : ∀ (k : Nat) (x y : Char), digits base k ++ [x] ≠ [y] := fun k x y heq => by
    have hlen := congrArg List.length heq
    have hpos := List.length_pos_iff.mpr (digits_ne_nil base k)
    simp only [List.length_append, List.length_cons, List.length_nil] at hlen
    omega
  induction m using Nat.strongRecOn generalizing n with
  | ind m ih =>
      rw [digits, digits.eq_def base n] at h
      split at h
      · next hm =>
          split at h
          · obtain ⟨hinit, hdigit⟩ := List.append_inj' h rfl
            have hdiv := ih (m / base) (Nat.div_lt_self (by omega) hlo) hinit
            have hlast : ∀ k, k % base < 16 := fun k =>
              Nat.lt_of_lt_of_le (Nat.mod_lt k (by omega)) hhi
            have hmod := digit_inj _ (hlast m) _ (hlast n) (List.cons.inj hdigit).1
            rw [← Nat.div_add_mod m base, ← Nat.div_add_mod n base, hdiv, hmod]
          · exact absurd h (htwo _ _ _)
      · next hm =>
          split at h
          · exact absurd h.symm (htwo _ _ _)
          · exact digit_inj m (by omega) n (by omega) (List.cons.inj h).1

theorem minus_ne_digit : ∀ d < 10, '-' ≠ digit d := by decide

theorem ofInt_ne_nil (i : Int) : ofInt i ≠ [] := by
  cases i with
  | ofNat n => exact digits_ne_nil 10 n
  | negSucc n => exact List.cons_ne_nil _ _

/-- **Integers have different texts.** -/
theorem ofInt_inj {i j : Int} (h : ofInt i = ofInt j) : i = j := by
  -- A numeral does not begin with a minus sign.
  have hminus : ∀ (n : Nat) (cs : List Char), digits 10 n ≠ '-' :: cs := fun n cs heq => by
    have hmem : '-' ∈ digits 10 n := heq ▸ List.mem_cons_self
    obtain ⟨d, hd, hdigit⟩ := exists_digit_of_mem (by decide) hmem
    exact minus_ne_digit d hd hdigit
  cases i with
  | ofNat m =>
      cases j with
      | ofNat n => exact congrArg _ (digits_inj (by decide) (by decide) h)
      | negSucc n => exact absurd h (hminus _ _)
  | negSucc m =>
      cases j with
      | ofNat n => exact absurd h.symm (hminus _ _)
      | negSucc n =>
          have hmn := digits_inj (by decide) (by decide) (List.cons.inj h).2
          exact congrArg _ (Nat.succ.inj hmn)

end Numeral

/-! ### Characters -/

namespace Text

/-- The characters that are escaped by a letter, digit or sign of their own, with it. -/
def shortEscapes : List (Char × Char) :=
  [('"', '"'), ('\\', '\\'), ('\x00', '0'), ('\t', 't'), ('\r', 'r'), ('\n', 'n')]

/-- `Written c cs`: inside quotation marks the character `c` is written `cs`. -/
inductive Written : Char → List Char → Prop where
  | plain {c : Char} : c ≠ '"' → c ≠ '\\' → c ≠ '\n' → Written c [c]
  | short {c e : Char} : (c, e) ∈ shortEscapes → Written c ['\\', e]
  | codePoint {c : Char} : Written c (codePoint c)

/-- Every character is written in one of the three forms. -/
theorem written_quoteChar (c : Char) : Written c (quoteChar c) := by
  unfold quoteChar
  -- Six characters have a short escape.
  iterate 6
    split
    · next h =>
        subst h
        exact .short (by decide)
  split
  · exact .codePoint
  · next hquote hslash _ _ _ hline _ => exact .plain hquote hslash hline

/-- A code point ends at its brace, and tells its character. -/
theorem codePoint_append_inj {c d : Char} {u v : List Char}
    (h : codePoint c ++ u = codePoint d ++ v) : c = d ∧ u = v := by
  have hhex : ∀ c : Char, ∀ x ∈ Numeral.digits 16 c.toNat, (x != '\x7d') = true := fun c x hx => by
    obtain ⟨k, hk, rfl⟩ := Numeral.exists_digit_of_mem (by decide) hx
    exact (by decide : ∀ k < 16, (Numeral.digit k != '\x7d') = true) k hk
  have hstop : ∀ w : List Char, Stops (· != '\x7d') ('\x7d' :: w) := fun w => stops_cons.mpr rfl
  simp only [codePoint, List.append_assoc, List.cons_append, List.nil_append, List.cons.injEq,
    true_and] at h
  have htake := congrArg (List.takeWhile (· != '\x7d')) h
  have hdrop := congrArg (List.dropWhile (· != '\x7d')) h
  rw [takeWhile_run (hhex c) (hstop u), takeWhile_run (hhex d) (hstop v)] at htake
  rw [dropWhile_run (hhex c) (hstop u), dropWhile_run (hhex d) (hstop v)] at hdrop
  have hnat := Numeral.digits_inj (by decide) (by decide) htake
  exact ⟨Char.toNat_inj.mp hnat, (List.cons.inj hdrop).2⟩

theorem short_inj : ∀ p ∈ shortEscapes, ∀ q ∈ shortEscapes, p.2 = q.2 → p.1 = q.1 := by decide

theorem short_ne_u : ∀ p ∈ shortEscapes, p.2 ≠ 'u' := by decide

/-- **No written character begins another**, so that it can be told what follows it. -/
theorem written_append_inj {c d : Char} {s t u v : List Char} (hs : Written c s) (ht : Written d t)
    (h : s ++ u = t ++ v) : c = d ∧ u = v := by
  cases hs with
  | plain _ hslash _ =>
      cases ht with
      | plain => exact List.cons.inj h
      | short | codePoint => exact absurd (List.cons.inj h).1 hslash
  | short hc =>
      cases ht with
      | plain _ hslash _ => exact absurd (List.cons.inj h).1.symm hslash
      | short hd =>
          obtain ⟨he, huv⟩ := List.cons.inj (List.cons.inj h).2
          exact ⟨short_inj _ hc _ hd he, huv⟩
      | codePoint => exact absurd (List.cons.inj (List.cons.inj h).2).1 (short_ne_u _ hc)
  | codePoint =>
      cases ht with
      | plain _ hslash _ => exact absurd (List.cons.inj h).1.symm hslash
      | short hd => exact absurd (List.cons.inj (List.cons.inj h).2).1.symm (short_ne_u _ hd)
      | codePoint => exact codePoint_append_inj h

theorem Written.exists_cons {c : Char} {s : List Char} (h : Written c s) :
    ∃ x xs, s = x :: xs ∧ x ≠ '"' := by
  cases h with
  | plain hquote => exact ⟨_, _, rfl, hquote⟩
  | short | codePoint => exact ⟨_, _, rfl, by decide⟩

/-- **A quoted text ends at its quotation mark, and tells its characters.** -/
theorem quoted_append_inj {s t u v : List Char}
    (h : s.flatMap quoteChar ++ '"' :: u = t.flatMap quoteChar ++ '"' :: v) : s = t ∧ u = v := by
  induction s generalizing t with
  | nil =>
      cases t with
      | nil => exact ⟨rfl, (List.cons.inj h).2⟩
      | cons d t =>
          obtain ⟨x, xs, hx, hne⟩ := (written_quoteChar d).exists_cons
          rw [List.flatMap_cons, hx] at h
          exact absurd (List.cons.inj h).1.symm hne
  | cons c s ih =>
      cases t with
      | nil =>
          obtain ⟨x, xs, hx, hne⟩ := (written_quoteChar c).exists_cons
          rw [List.flatMap_cons, hx] at h
          exact absurd (List.cons.inj h).1 hne
      | cons d t =>
          rw [List.flatMap_cons, List.flatMap_cons, List.append_assoc, List.append_assoc] at h
          obtain ⟨rfl, hrest⟩ := written_append_inj (written_quoteChar c) (written_quoteChar d) h
          obtain ⟨rfl, huv⟩ := ih hrest
          exact ⟨rfl, huv⟩

end Text

end Treewalk
