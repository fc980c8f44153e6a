import Treewalk.Proofs.Lexical.Lexemes

/-!
# Lexical — Maximal munch

The lexer divides a text as the patterns say.

* `munches_cut`: what is cut off is the longest beginning that some pattern matches.  A text that a
  pattern matches is cut off as a whole if it stands alone (`Pattern.Matches.cut`), and what stands
  behind it does not shorten it (`cut_le_append`).
* `splits_iff`: so there is one way to divide a text, and it is the way of the lexer.
-/

namespace Treewalk

open Lexeme Text

/-! ### Classes of characters -/

theorem Lexeme.isGap_iff {c : Char} : isGap c = true ↔ c ∈ [' ', '\t', '\r', '\n', '\x0c'] := by
  simp [isGap, or_assoc]

theorem Lexeme.isDigit_iff {c : Char} : c.isDigit = true ↔ IsDigit c := by
  simp [Char.isDigit, IsDigit, Char.le_def]

theorem Lexeme.isWordStart_iff {c : Char} : isWordStart c = true ↔ IsLetter c := by
  rw [isWordStart, Bool.or_eq_true, beq_iff_eq]
  delta Char.isAlpha Char.isUpper Char.isLower
  simp [IsLetter, Char.le_def, or_assoc]

theorem Lexeme.isWordPart_iff {c : Char} : isWordPart c = true ↔ IsLetter c ∨ IsDigit c := by
  rw [isWordPart, Bool.or_eq_true, isWordStart_iff, isDigit_iff]

/-! ### Patterns and cuts -/

/-- The class of the lexemes that the pattern matches. -/
def Pattern.shape : Pattern → Shape
  | gap => .gap
  | comment => .comment
  | keyword _ | name => .word
  | mark m => .mark m
  | digits => .digits
  | closedText => .closedText
  | openText => .openText

/-- The pattern of a lexeme. -/
def Lexeme.pattern? : Shape → List Char → Option Pattern
  | .gap, _ => some .gap
  | .comment, _ => some .comment
  | .digits, _ => some .digits
  | .word, w => some ((Keyword.ofWord? (String.ofList w)).elim .name .keyword)
  | .mark m, _ => some (.mark m)
  | .closedText, _ => some .closedText
  | .openText, _ => some .openText
  | .stray, _ => none

/-- A lexeme with its pattern. -/
def Lexeme.piece (shape : Shape) (text : List Char) : Piece := ⟨pattern? shape text, text⟩

theorem Keyword.ofWord?_eq_some_iff {x : String} {k : Keyword} :
    ofWord? x = some k ↔ x = k.spelling := by
  constructor
  · intro h
    have hk := List.find?_some (p := fun k : Keyword => k.spelling == x) h
    exact (beq_iff_eq.mp hk).symm
  · rintro rfl
    cases k <;> rfl

theorem Lexeme.run_eq_length {p : Char → Bool} {cs : List Char} (h : ∀ c ∈ cs, p c = true) :
    run p cs = cs.length := by
  simpa [run] using congrArg List.length (takeWhile_run h stops_nil)

theorem Lexeme.forall_mem_take_run (p : Char → Bool) (cs : List Char) :
    ∀ c ∈ cs.take (run p cs), p c = true := by
  rw [run, take_length_takeWhile]
  exact forall_mem_takeWhile p cs

theorem Pattern.Matches.ne_nil {q : Pattern} {text : List Char} (h : q.Matches text) :
    text ≠ [] := by
  cases h with
  | gap hne | digits hne => exact hne
  | @keyword k => cases k <;> decide
  | @mark m => cases m <;> decide
  | comment | closedText | openText | name => exact List.cons_ne_nil _ _

theorem Pattern.Matches.eq_spelling {k : Keyword} {text : List Char}
    (h : (Pattern.keyword k).Matches text) : k.spelling.toList = text := by
  generalize hp : Pattern.keyword k = p at h
  cases h <;> cases hp
  rfl

theorem Pattern.Matches.eq_quoted {text : List Char} (h : Pattern.closedText.Matches text) :
    ∃ body, text = '"' :: (body ++ ['"']) := by
  generalize hp : Pattern.closedText = p at h
  cases h <;> cases hp
  exact ⟨_, rfl⟩

/-- A text that a pattern matches is cut off as a whole. -/
theorem Pattern.Matches.cut {q : Pattern} {c : Char} {cs : List Char} (h : q.Matches (c :: cs)) :
    Lexeme.cut c cs = (q.shape, cs.length) := by
  generalize ht : c :: cs = text at h
  cases h with
  | gap hne hall =>
      subst ht
      have hg : ∀ d ∈ c :: cs, isGap d = true := fun d hd => isGap_iff.mpr (hall d hd)
      rw [List.forall_mem_cons] at hg
      rw [cut_gap hg.1, run_eq_length hg.2]
      rfl
  | comment hn =>
      cases ht
      rw [Cuts.comment.cut, run_eq_length]
      · rfl
      · intro d hd
        simp only [bne_iff_ne, ne_eq]
        rintro rfl
        exact hn hd
  | @keyword k => cases k <;> cases ht <;> rfl
  | @mark m => cases m <;> cases ht <;> rfl
  | digits hne hall =>
      subst ht
      have hd : ∀ d ∈ c :: cs, d.isDigit = true := fun d hd => isDigit_iff.mpr (hall d hd)
      rw [List.forall_mem_cons] at hd
      rw [cut_digits hd.1, run_eq_length hd.2]
      rfl
  | closedText hbody =>
      cases ht
      change textReach 0 _ = _
      rw [textReach_inner hbody, textReach_quote]
      simp [shape]
  | openText hbody =>
      cases ht
      have hreach := textReach_inner hbody 0 []
      rw [List.append_nil, Nat.zero_add] at hreach
      exact hreach
  | name hc hall =>
      cases ht
      have hw : ∀ d ∈ cs, isWordPart d = true := fun d hd => isWordPart_iff.mpr (hall d hd)
      rw [cut_word (isWordStart_iff.mpr hc), run_eq_length hw]
      rfl

/-- A pattern that matches a beginning of the text does not reach further than the cut, and the text
begins with something. -/
theorem Pattern.Matches.length_le {q : Pattern} {text : List Char} {c : Char} {rest : List Char}
    (h : q.Matches text) (ht : text <+: c :: rest) :
    text.length ≤ (Lexeme.cut c rest).2 + 1 ∧ (Lexeme.cut c rest).1 ≠ .stray := by
  cases text with
  | nil => exact absurd rfl h.ne_nil
  | cons d cs =>
      obtain ⟨rfl, more, rfl⟩ := List.cons_prefix_cons.mp ht
      have hcut := h.cut
      refine ⟨Nat.succ_le_succ ?_, fun hstray => ?_⟩
      · have hle := cut_le_append d cs more
        rwa [hcut] at hle
      · rw [cut_stray (Prod.ext hstray rfl) cs] at hcut
        cases q <;> cases congrArg Prod.fst hcut

/-- What is cut off matches its pattern. -/
theorem matches_cut {c : Char} {rest : List Char} {shape : Shape} {n : Nat} {p : Pattern}
    (h : cut c rest = (shape, n)) (hp : pattern? shape (c :: rest.take n) = some p) :
    p.Matches (c :: rest.take n) := by
  cases cut_eq_iff.mp h with
  | gap hc =>
      cases hp
      refine .gap (List.cons_ne_nil _ _) (List.forall_mem_cons.mpr ⟨isGap_iff.mp hc, ?_⟩)
      exact fun d hd => isGap_iff.mp (forall_mem_take_run _ _ d hd)
  | digits hc =>
      cases hp
      refine .digits (List.cons_ne_nil _ _) (List.forall_mem_cons.mpr ⟨isDigit_iff.mp hc, ?_⟩)
      exact fun d hd => isDigit_iff.mp (forall_mem_take_run _ _ d hd)
  | word hc =>
      obtain rfl := Option.some.inj hp
      cases hk : Keyword.ofWord? (String.ofList (c :: rest.take (Lexeme.run isWordPart rest))) with
      | none =>
          refine .name (isWordStart_iff.mp hc) fun d hd => ?_
          exact isWordPart_iff.mp (forall_mem_take_run _ _ d hd)
      | some k =>
          rw [← String.toList_ofList (l := c :: _), Keyword.ofWord?_eq_some_iff.mp hk]
          exact .keyword
  | text ht =>
      obtain ⟨body, more, rfl, hbody, ⟨more, rfl, hc⟩ | ho⟩ := exists_inner 0 rest
      · cases hc.symm.trans ht
        cases hp
        rw [Nat.zero_add, List.take_length_add_append]
        exact .closedText hbody
      · cases ho.symm.trans ht
        cases hp
        rw [Nat.zero_add, List.take_left]
        exact .openText hbody
  | @comment rest =>
      cases hp
      refine .comment fun hmem => ?_
      exact absurd (forall_mem_take_run _ rest _ hmem) (by decide)
  | equal => cases hp; exact .mark
  | single hm _ _ =>
      cases hp
      unfold single? at hm
      split at hm <;> cases hm <;> exact .mark
  | stray => cases hp

theorem Lexeme.shape_of_pattern? {shape : Shape} {text : List Char} {p : Pattern}
    (h : pattern? shape text = some p) : shape = p.shape := by
  cases shape with
  | word =>
      obtain rfl := Option.some.inj h
      cases Keyword.ofWord? (String.ofList text) <;> rfl
  | stray => cases h
  | _ => cases h; rfl

theorem Pattern.Matches.shape_eq {p q : Pattern} {text : List Char} (hp : p.Matches text)
    (hq : q.Matches text) : p.shape = q.shape := by
  cases text with
  | nil => exact absurd rfl hp.ne_nil
  | cons c cs => exact congrArg Prod.fst (hp.cut.symm.trans hq.cut)

/-- Only a keyword and the pattern of names match the same text. -/
theorem Pattern.Matches.unique {p q : Pattern} {text : List Char} (hp : p.Matches text)
    (hq : q.Matches text) (h : p.isLiteral = q.isLiteral) : p = q := by
  have hshape := hp.shape_eq hq
  cases p with
  | keyword k =>
      cases q with
      | keyword l =>
          have hkl := hp.eq_spelling.trans hq.eq_spelling.symm
          have hk : Keyword.ofWord? l.spelling = some k :=
            Keyword.ofWord?_eq_some_iff.mpr (String.toList_inj.mp hkl).symm
          have hl : Keyword.ofWord? l.spelling = some l := Keyword.ofWord?_eq_some_iff.mpr rfl
          rw [Option.some.inj (hk.symm.trans hl)]
      | name => cases h
      | _ => cases hshape
  | name =>
      cases q with
      | keyword l => cases h
      | name => rfl
      | _ => cases hshape
  | _ =>
      cases q <;> cases hshape
      rfl

/-! ### Dividing a text -/

/-- **What is cut off is the longest lexeme.** -/
theorem munches_cut {c : Char} {rest : List Char} {shape : Shape} {n : Nat}
    (h : cut c rest = (shape, n)) :
    Munches (c :: rest) (piece shape (c :: rest.take n)) := by
  rw [piece]
  cases hp : pattern? shape (c :: rest.take n) with
  | none =>
      have hs : shape = .stray := by
        cases shape <;> first | rfl | cases hp
      subst hs
      obtain ⟨-, rfl⟩ := Prod.mk.inj (h.symm.trans (cut_stray h rest))
      refine .stray fun q t ht hq => (hq.length_le ht).2 ?_
      rw [h]
  | some p =>
      have hm := matches_cut h hp
      refine .longest ?_ hm ?_ ?_
      · exact List.cons_prefix_cons.mpr ⟨rfl, List.take_prefix n rest⟩
      · intro q t ht hq
        have hle := (hq.length_le ht).1
        rw [h] at hle
        rwa [List.length_cons, List.length_take_of_le (cut_le h)]
      · intro q hq hl
        have hshape : shape = q.shape := (shape_of_pattern? hp).trans (hm.shape_eq hq)
        cases q with
        | keyword k =>
            have hk : Keyword.ofWord? (String.ofList (c :: rest.take n)) = some k := by
              rw [Keyword.ofWord?_eq_some_iff, ← hq.eq_spelling, String.ofList_toList]
            subst hshape
            rw [Pattern.shape, pattern?, hk] at hp
            cases hp
            rfl
        | mark m => cases hshape; cases hp; rfl
        | _ => cases hl

/-- A text begins with one piece only. -/
theorem Munches.unique {cs : List Char} {p q : Piece} (hp : Munches cs p) (hq : Munches cs q) :
    p = q := by
  cases hp with
  | @longest _ t p ht hm hmax hlit =>
      cases hq with
      | @longest _ u q hu hn hmax' hlit' =>
          have hlen : t.length = u.length := Nat.le_antisymm (hmax' p t ht hm) (hmax q u hu hn)
          obtain rfl : t = u :=
            (List.prefix_of_prefix_length_le ht hu (Nat.le_of_eq hlen)).eq_of_length hlen
          rw [hm.unique hn (Bool.eq_iff_iff.mpr ⟨hlit' p hm, hlit q hn⟩)]
      | stray hno => exact absurd hm (hno p t ht)
  | stray hno =>
      cases hq with
      | @longest _ u q hu hn => exact absurd hn (hno q u hu)
      | stray => rfl

theorem Munches.ne_nil {cs : List Char} {p : Piece} (h : Munches cs p) : p.text ≠ [] := by
  cases h with
  | longest _ hm => exact hm.ne_nil
  | stray => exact List.cons_ne_nil _ _

/-- The pieces that are cut off one after another. -/
def pieces : List Char → List Piece
  | [] => []
  | c :: rest =>
    let (shape, n) := cut c rest
    piece shape (c :: rest.take n) :: pieces (rest.drop n)
termination_by cs => cs.length
decreasing_by
  simp only [List.length_drop, List.length_cons]
  omega

theorem pieces_cons {c : Char} {rest : List Char} {shape : Shape} {n : Nat}
    (h : cut c rest = (shape, n)) :
    pieces (c :: rest) = piece shape (c :: rest.take n) :: pieces (rest.drop n) := by
  rw [pieces, h]

theorem splits_pieces (cs : List Char) : Splits cs (pieces cs) := by
  fun_induction pieces cs with
  | case1 => exact .nil
  | case2 c rest shape n h ih =>
      have heq : c :: rest = (c :: rest.take n) ++ rest.drop n := by
        rw [List.cons_append, List.take_append_drop]
      have hm := munches_cut h
      rw [heq] at hm ⊢
      exact .cons (p := piece shape (c :: rest.take n)) hm ih

/-- **There is one way to divide a text**, and the cuts make it. -/
theorem splits_iff {cs : List Char} {ps : List Piece} : Splits cs ps ↔ ps = pieces cs := by
  refine ⟨fun h => ?_, fun h => h ▸ splits_pieces cs⟩
  induction h with
  | nil => rw [pieces]
  | @cons p rest ps hm _ ih =>
      obtain ⟨c, cs, hcs⟩ := List.exists_cons_of_ne_nil hm.ne_nil
      obtain ⟨⟨shape, n⟩, hcut⟩ : ∃ r, cut c (cs ++ rest) = r := ⟨_, rfl⟩
      rw [hcs, List.cons_append] at hm ⊢
      have hp := hm.unique (munches_cut hcut)
      have htake : (cs ++ rest).take n = cs :=
        (List.cons.inj ((congrArg Piece.text hp).symm.trans hcs)).2
      have hdrop : (cs ++ rest).drop n = rest := by
        have h := List.take_append_drop n (cs ++ rest)
        rw [htake] at h
        exact List.append_cancel_left h
      rw [pieces_cons hcut, hdrop, ← ih, ← hp]

end Treewalk
