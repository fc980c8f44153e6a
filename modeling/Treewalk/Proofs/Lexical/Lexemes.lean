import Treewalk.Proofs.Lexical.Patterns
import Treewalk.Proofs.Lexical.Spelling

/-!
# Lexical — Lexemes

All that a cut can do, one rule for each way to begin a lexeme: `Cuts c rest shape n` says that
`c :: rest` begins with a lexeme of class `shape` that takes `n` characters of `rest`.  The rules
are those of `Lexeme.cut` and no others (`cut_eq_iff`), so what holds of every lexeme is shown by
cases on the rule.

* `exists_inner`: how far a text behind its quotation mark reaches.
* `cut_le`: a lexeme does not reach past the end of the text.
* `cut_append`: a lexeme is cut the same way if a blank and more text stand behind, unless it is a
  run of blanks, a comment that goes on, or a text that is not closed.
-/

namespace Treewalk.Lexeme

open Text

variable {c : Char} {rest : List Char} {shape : Shape} {n : Nat}

/-! ### The rules -/

/-- The text `c :: rest` begins with a lexeme of class `shape` that takes `n` characters of
`rest`. -/
inductive Cuts : Char → List Char → Shape → Nat → Prop where
  | gap {c : Char} {rest : List Char} : isGap c = true → Cuts c rest .gap (run isGap rest)
  | digits {c : Char} {rest : List Char} : c.isDigit = true →
      Cuts c rest .digits (run Char.isDigit rest)
  | word {c : Char} {rest : List Char} : isWordStart c = true →
      Cuts c rest .word (run isWordPart rest)
  | text {rest : List Char} {shape : Shape} {n : Nat} : textReach 0 rest = (shape, n) →
      Cuts '"' rest shape n
  | comment {rest : List Char} : Cuts '/' ('/' :: rest) .comment (run (· != '\n') rest + 1)
  | equal {rest : List Char} : Cuts '=' ('=' :: rest) (.mark .equal) 1
  | single {c : Char} {rest : List Char} {m : Mark} : single? c = some m →
      (c = '/' → rest.head? ≠ some '/') → (c = '=' → rest.head? ≠ some '=') →
      Cuts c rest (.mark m) 0
  | stray {c : Char} {rest : List Char} : isGap c = false → c.isDigit = false →
      isWordStart c = false → c ≠ '"' → single? c = none → Cuts c rest .stray 0

theorem cuts_of_cut (h : cut c rest = (shape, n)) : Cuts c rest shape n := by
  unfold cut at h
  split at h
  · next hc => cases h; exact .gap hc
  split at h
  · next hc => cases h; exact .digits hc
  split at h
  · next hc => cases h; exact .word hc
  split at h
  · next hc => subst hc; exact .text h
  split at h
  · next hc =>
      obtain ⟨rfl, hr⟩ := hc
      obtain ⟨rest', rfl⟩ := List.head?_eq_some_iff.mp hr
      cases h
      exact .comment
  split at h
  · next hc =>
      obtain ⟨rfl, hr⟩ := hc
      obtain ⟨rest', rfl⟩ := List.head?_eq_some_iff.mp hr
      cases h
      exact .equal
  split at h
  · next hslash hequal _ m hm =>
      cases h
      exact .single hm (fun hc hr => hslash ⟨hc, hr⟩) (fun hc hr => hequal ⟨hc, hr⟩)
  · next hg hd hw hq _ _ _ hm =>
      cases h
      exact .stray (Bool.eq_false_iff.mpr hg) (Bool.eq_false_iff.mpr hd) (Bool.eq_false_iff.mpr hw)
        hq hm

theorem Cuts.cut (h : Cuts c rest shape n) : Lexeme.cut c rest = (shape, n) := by
  cases h with
  | gap hc => exact cut_gap hc rest
  | digits hc => exact cut_digits hc rest
  | word hc => exact cut_word hc rest
  | text h => exact h
  | comment => rfl
  | equal => rfl
  | single hm hslash hequal =>
      unfold single? at hm
      split at hm <;> cases hm
      case h_1 => simp [Lexeme.cut, hequal rfl, isGap, isWordStart, single?]
      case h_5 => simp [Lexeme.cut, hslash rfl, isGap, isWordStart, single?]
      all_goals rfl
  | stray hg hd hw hq hm =>
      have hslash : c ≠ '/' := fun h => by subst h; cases hm
      have hequal : c ≠ '=' := fun h => by subst h; cases hm
      simp [Lexeme.cut, hg, hd, hw, hq, hslash, hequal, hm]

/-- The rules are those of the cut. -/
theorem cut_eq_iff : cut c rest = (shape, n) ↔ Cuts c rest shape n :=
  ⟨cuts_of_cut, Cuts.cut⟩

/-! ### How far a text reaches -/

theorem textReach_plain (k : Nat) {c : Char} (hq : c ≠ '"') (hb : c ≠ '\\') (hn : c ≠ '\n')
    (cs : List Char) : textReach k (c :: cs) = textReach (k + 1) cs := by
  rw [textReach]
  · rw [if_neg hq, if_neg hn]
  · exact fun h => absurd h hb
  · exact fun _ _ h => absurd h hb

/-- What may stand between quotation marks is passed. -/
theorem textReach_inner {body : List Char} (h : Inner body) (k : Nat) (rest : List Char) :
    textReach k (body ++ rest) = textReach (k + body.length) rest := by
  induction h generalizing k with
  | nil => rfl
  | @plain c cs hq hb hn _ ih =>
      rw [List.cons_append, textReach_plain k hq hb hn, ih, List.length_cons]
      congr 1
      omega
  | @escaped c cs hn _ ih =>
      rw [List.cons_append, List.cons_append, textReach, if_neg hn, ih, List.length_cons,
        List.length_cons]
      congr 1
      omega

theorem textReach_quote (k : Nat) (rest : List Char) :
    textReach k ('"' :: rest) = (.closedText, k + 1) := rfl

theorem le_textReach (k : Nat) (cs : List Char) : k ≤ (textReach k cs).2 := by
  fun_induction textReach k cs with
  | case1 | case2 | case3 | case6 => exact Nat.le_refl _
  | case4 k c cs _ ih => omega
  | case5 => exact Nat.le_succ _
  | case7 k c cs _ _ _ _ ih => omega

/-- A text reaches as far as what may stand between quotation marks, and is closed if the next
character is a quotation mark. -/
theorem exists_inner (k : Nat) (cs : List Char) :
    ∃ body rest, cs = body ++ rest ∧ Inner body ∧
      ((∃ rest', rest = '"' :: rest' ∧ textReach k cs = (.closedText, k + body.length + 1)) ∨
        textReach k cs = (.openText, k + body.length)) := by
  fun_induction textReach k cs with
  | case1 k => exact ⟨[], [], rfl, .nil, .inr rfl⟩
  | case2 k => exact ⟨[], ['\\'], rfl, .nil, .inr rfl⟩
  | case3 k cs => exact ⟨[], _, rfl, .nil, .inr rfl⟩
  | case4 k c cs hn ih =>
      obtain ⟨body, rest, rfl, hbody, h⟩ := ih
      refine ⟨'\\' :: c :: body, rest, rfl, .escaped hn hbody, ?_⟩
      rw [List.length_cons, List.length_cons]
      grind
  | case5 k cs => exact ⟨[], _, rfl, .nil, .inl ⟨cs, rfl, rfl⟩⟩
  | case6 k cs => exact ⟨[], _, rfl, .nil, .inr rfl⟩
  | case7 k c cs h1 h2 hq hn ih =>
      obtain ⟨body, rest, rfl, hbody, h⟩ := ih
      have hb : c ≠ '\\' := by
        intro hc
        cases hcs : body ++ rest with
        | nil => exact h1 hc hcs
        | cons d ds => exact h2 d ds hc hcs
      refine ⟨c :: body, rest, rfl, .plain hq hb hn hbody, ?_⟩
      rw [List.length_cons]
      grind

/-- A text that is closed ends there, whatever stands behind. -/
theorem textReach_append {k n : Nat} {cs : List Char} (h : textReach k cs = (.closedText, n))
    (ds : List Char) : textReach k (cs ++ ds) = (.closedText, n) := by
  obtain ⟨body, rest, rfl, hbody, ⟨rest', rfl, hc⟩ | ho⟩ := exists_inner k cs
  · rw [List.append_assoc, textReach_inner hbody, List.cons_append, textReach_quote]
    exact hc.symm.trans h
  · cases ho.symm.trans h

/-! ### How far a lexeme reaches -/

theorem run_le (p : Char → Bool) (cs : List Char) : run p cs ≤ cs.length :=
  (List.takeWhile_prefix p).length_le

/-- A lexeme does not reach past the end of the text. -/
theorem cut_le (h : cut c rest = (shape, n)) : n ≤ rest.length := by
  cases cut_eq_iff.mp h with
  | gap | digits | word => exact run_le _ _
  | text h =>
      obtain ⟨body, rest', rfl, -, ⟨rest'', rfl, hc⟩ | ho⟩ := exists_inner 0 rest
      · obtain ⟨-, rfl⟩ := Prod.mk.inj (hc.symm.trans h)
        simp
      · obtain ⟨-, rfl⟩ := Prod.mk.inj (ho.symm.trans h)
        simp
  | comment => exact Nat.succ_le_succ (run_le _ _)
  | equal => exact Nat.succ_le_succ (Nat.zero_le _)
  | single | stray => exact Nat.zero_le _

/-! ### What stands behind a lexeme -/

theorem run_le_append (p : Char → Bool) (cs ds : List Char) : run p cs ≤ run p (cs ++ ds) := by
  rw [run, run, List.takeWhile_append]
  split
  · next h => simp [h]
  · exact Nat.le_refl _

/-- **Text behind a lexeme does not shorten it.** -/
theorem cut_le_append (c : Char) (cs ds : List Char) : (cut c cs).2 ≤ (cut c (cs ++ ds)).2 := by
  obtain ⟨⟨shape, n⟩, hcut⟩ : ∃ r, cut c cs = r := ⟨_, rfl⟩
  rw [hcut]
  cases cut_eq_iff.mp hcut with
  | gap hc =>
      rw [cut_gap hc]
      exact run_le_append _ _ _
  | digits hc =>
      rw [cut_digits hc]
      exact run_le_append _ _ _
  | word hc =>
      rw [cut_word hc]
      exact run_le_append _ _ _
  | text ht =>
      change n ≤ (textReach 0 (cs ++ ds)).2
      obtain ⟨body, rest, rfl, hbody, ⟨rest', rfl, hc⟩ | ho⟩ := exists_inner 0 cs
      · cases hc.symm.trans ht
        exact textReach_append hc ds ▸ Nat.le_refl _
      · cases ho.symm.trans ht
        rw [List.append_assoc, textReach_inner hbody]
        exact le_textReach _ _
  | comment =>
      rw [List.cons_append, Cuts.comment.cut]
      exact Nat.succ_le_succ (run_le_append _ _ _)
  | equal => exact Nat.le_refl 1
  | single | stray => exact Nat.zero_le _

/-- A character starts nothing, whatever stands behind it. -/
theorem cut_stray (h : cut c rest = (.stray, n)) (rest' : List Char) :
    cut c rest' = (.stray, 0) := by
  cases cut_eq_iff.mp h with
  | text ht =>
      obtain ⟨_, _, -, -, ⟨_, -, hc⟩ | ho⟩ := exists_inner 0 rest
      · cases hc.symm.trans ht
      · cases ho.symm.trans ht
  | stray hg hd hw hq hm => exact (Cuts.stray hg hd hw hq hm).cut

/-- A run ends before what does not continue it. -/
theorem run_append {p : Char → Bool} {d : Char} (hd : p d = false) (cs ds : List Char) :
    run p (cs ++ d :: ds) = run p cs := by
  induction cs with
  | nil => simp [run, hd]
  | cons c cs ih =>
      simp only [run, List.cons_append, List.takeWhile_cons] at ih ⊢
      split <;> simp_all

theorem head?_append_ne {cs ds : List Char} {d x : Char} (hd : d ≠ x)
    (h : cs.head? ≠ some x) : (cs ++ d :: ds).head? ≠ some x := by
  cases cs with
  | nil => simpa using hd
  | cons c cs => exact h

/-- **A blank behind a lexeme leaves it as it is**, unless it is a run of blanks or a text that is
not closed; a comment ends at the end of its line only. -/
theorem cut_append (h : cut c rest = (shape, n)) {d : Char} (hd : isGap d = true)
    (hgap : shape ≠ .gap) (hopen : shape ≠ .openText) (hcomment : shape = .comment → d = '\n')
    (ds : List Char) : cut c (rest ++ d :: ds) = (shape, n) := by
  have hne : ∀ {p : Char → Bool}, [' ', '\t', '\r', '\n', '\x0c'].any p = false → p d = false :=
    fun hp => Bool.eq_false_iff.mpr fun hpd => not_isGap hp hpd hd
  refine cut_eq_iff.mpr ?_
  cases cut_eq_iff.mp h with
  | gap => exact absurd rfl hgap
  | digits hc =>
      have hrun := run_append (hne (p := Char.isDigit) (by decide)) rest ds
      exact hrun ▸ .digits hc
  | word hc =>
      have hrun := run_append (hne (p := isWordPart) (by decide)) rest ds
      exact hrun ▸ .word hc
  | @text rest shape n ht =>
      have hshape : shape = .closedText := by
        obtain ⟨_, _, -, -, ⟨_, -, hc⟩ | ho⟩ := exists_inner 0 rest
        · exact (congrArg Prod.fst (hc.symm.trans ht)).symm
        · exact absurd (congrArg Prod.fst (ho.symm.trans ht)).symm hopen
      subst hshape
      exact .text (textReach_append ht _)
  | @comment rest =>
      have hd : d = '\n' := hcomment rfl
      have hrun := run_append (p := (· != '\n')) (d := d) (by simp [hd]) rest ds
      exact hrun ▸ .comment
  | equal => exact .equal
  | single hm hslash hequal =>
      refine .single hm (fun hc => head?_append_ne ?_ (hslash hc))
        (fun hc => head?_append_ne ?_ (hequal hc))
      · rintro rfl
        exact absurd hd (by decide)
      · rintro rfl
        exact absurd hd (by decide)
  | stray hg hdig hw hq hm => exact .stray hg hdig hw hq hm

end Treewalk.Lexeme
