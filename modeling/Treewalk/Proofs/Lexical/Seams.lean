import Treewalk.Proofs.Lexical.Tiling
import Treewalk.Proofs.Program.Concatenation

/-!
# Lexical — Seams

What may be put between two pieces of a text without a change to its symbols.

* `cut_lookahead`: one character behind a lexeme decides where it ends; what follows that character
  does not matter.
* `Symbol.ofText_seam`: so the symbols of some pieces of a text depend on the next character only.
* `Symbol.ofText_insert`: filler that begins with a blank says nothing where a token begins or ends
  (`Edge`).
-/

namespace Treewalk

open Lexeme Treewalk.Symbol

/-! ### What follows a lexeme -/

namespace Lexeme

theorem run_lookahead {p : Char → Bool} {cs ds : List Char} {d : Char}
    (h : run p (cs ++ d :: ds) = cs.length) (ds' : List Char) :
    run p (cs ++ d :: ds') = cs.length := by
  induction cs with
  | nil =>
      have hd : p d = false := by
        refine Bool.eq_false_iff.mpr fun hd => ?_
        simp [run, hd] at h
      simp [run, hd]
  | cons c cs ih =>
      have hc : p c = true := by
        refine Decidable.byContradiction fun hc => ?_
        simp [run, hc] at h
      simp only [run, List.cons_append, List.takeWhile_cons, hc, if_true, List.length_cons,
        Nat.add_right_cancel_iff] at h ih ⊢
      exact ih h

theorem closedText_of_textReach {k n : Nat} {cs : List Char} {shape : Shape}
    (h : textReach k cs = (shape, n)) (hopen : shape ≠ .openText) : shape = .closedText := by
  obtain ⟨_, _, -, -, ⟨_, -, hc⟩ | ho⟩ := exists_inner k cs
  · exact (congrArg Prod.fst (hc.symm.trans h)).symm
  · exact absurd (congrArg Prod.fst (ho.symm.trans h)).symm hopen

theorem textReach_lookahead {cs ds : List Char}
    (h : textReach 0 (cs ++ ds) = (.closedText, cs.length)) (ds' : List Char) :
    textReach 0 (cs ++ ds') = (.closedText, cs.length) := by
  obtain ⟨body, rest, heq, hbody, ⟨rest', rfl, hc⟩ | ho⟩ := exists_inner 0 (cs ++ ds)
  · have hlen : (body ++ ['"']).length = cs.length := by
      simpa using (congrArg Prod.snd (hc.symm.trans h))
    have hcs : cs ++ ds = (body ++ ['"']) ++ rest' := by simpa using heq
    obtain ⟨rfl, -⟩ := List.append_inj hcs hlen.symm
    rw [List.append_assoc, textReach_inner hbody, List.singleton_append, textReach_quote]
    simp
  · cases ho.symm.trans h

variable {c d : Char} {cs ds : List Char} {shape : Shape}

/-- **One character decides where a lexeme ends**, unless it is a text that is not closed. -/
theorem cut_lookahead (h : cut c (cs ++ d :: ds) = (shape, cs.length)) (hopen : shape ≠ .openText)
    (ds' : List Char) : cut c (cs ++ d :: ds') = (shape, cs.length) := by
  generalize hr : cs ++ d :: ds = rest, hn : cs.length = n at h
  cases cut_eq_iff.mp h with
  | gap hc =>
      subst hr
      rw [cut_gap hc, run_lookahead hn.symm, hn]
  | digits hc =>
      subst hr
      rw [cut_digits hc, run_lookahead hn.symm, hn]
  | word hc =>
      subst hr
      rw [cut_word hc, run_lookahead hn.symm, hn]
  | text ht =>
      obtain rfl := closedText_of_textReach ht hopen
      subst hr hn
      exact textReach_lookahead ht _
  | comment =>
      cases cs with
      | nil => cases hn
      | cons e cs =>
          cases hr
          rw [List.cons_append, Cuts.comment.cut, run_lookahead (Nat.succ.inj hn).symm, ← hn]
          rfl
  | equal =>
      obtain ⟨e, rfl⟩ := List.length_eq_one_iff.mp hn
      cases hr
      rfl
  | single hm hslash hequal =>
      obtain rfl := List.length_eq_zero_iff.mp hn
      subst hr
      have hcuts : Cuts c (d :: ds') (.mark _) 0 := .single hm hslash hequal
      exact hcuts.cut
  | stray hg hd hw hq hm => exact (Cuts.stray hg hd hw hq hm).cut

end Lexeme

/-! ### Symbols at a seam -/

theorem Symbol.ofText_cut {c : Char} {text rest : List Char} {shape : Shape}
    (h : cut c (text ++ rest) = (shape, text.length)) :
    ofText (c :: (text ++ rest)) = (ofLexeme? shape (c :: text)).toList ++ ofText rest := by
  rw [ofText_cons h, List.take_left, List.drop_left]

/-- What is no offence is closed and no stray character. -/
theorem Symbol.shape_ne_of_not_mem {shape : Shape} {text : List Char}
    (h : .offence ∉ (ofLexeme? shape text).toList) : shape ≠ .openText ∧ shape ≠ .stray := by
  constructor
  · rintro rfl
    exact h (by simp [ofLexeme?])
  · rintro rfl
    exact h (by simp [ofLexeme?])

/-- The first piece of a text is cut off, and the others are pieces of the rest. -/
theorem Splits.exists_cut {cs : List Char} {p : Piece} {ps : List Piece}
    (h : Splits cs (p :: ps)) :
    ∃ c text rest shape, cs = c :: (text ++ rest) ∧ cut c (text ++ rest) = (shape, text.length) ∧
      p = piece shape (c :: text) ∧ Splits rest ps := by
  cases h with
  | @cons _ rest _ hm hs =>
      obtain ⟨c, text, ht⟩ := List.exists_cons_of_ne_nil hm.ne_nil
      obtain ⟨⟨shape, n⟩, hcut⟩ : ∃ r, cut c (text ++ rest) = r := ⟨_, rfl⟩
      rw [ht, List.cons_append] at hm
      have hp := hm.unique (munches_cut hcut)
      have htake : (text ++ rest).take n = text :=
        (List.cons.inj ((congrArg Piece.text hp).symm.trans ht)).2
      have hn : n = text.length := by
        have hlen := congrArg List.length htake
        rwa [List.length_take_of_le (cut_le hcut)] at hlen
      refine ⟨c, text, rest, shape, by rw [ht]; rfl, hn ▸ hcut, ?_, hs⟩
      rw [hp, htake]

/-- **The symbols of some pieces depend on the next character only.** -/
theorem Symbol.ofText_seam {ps qs : List Piece} {cs ds : List Char} {d : Char}
    (h : Splits (cs ++ d :: ds) (ps ++ qs)) (hps : ps.flatMap Piece.text = cs)
    (ho : .offence ∉ ofText (cs ++ d :: ds)) :
    ∃ ys, ∀ ds', ofText (cs ++ d :: ds') = ys ++ ofText (d :: ds') := by
  induction ps generalizing cs with
  | nil =>
      subst hps
      exact ⟨[], fun _ => rfl⟩
  | cons p ps ih =>
      obtain ⟨c, text, rest, shape, hcs, hcut, rfl, hs⟩ := h.exists_cut
      obtain rfl : c :: (text ++ ps.flatMap Piece.text) = cs := hps
      rw [List.cons_append, List.append_assoc] at hcs ho
      obtain rfl := List.append_cancel_left (List.cons.inj hcs).2
      rw [ofText_cut hcut, List.mem_append, not_or] at ho
      obtain ⟨ys, hys⟩ := ih hs rfl ho.2
      have hopen := (shape_ne_of_not_mem ho.1).1
      refine ⟨(ofLexeme? shape (c :: text)).toList ++ ys, fun ds' => ?_⟩
      -- The character behind the first lexeme is that of the next piece, or `d` behind the last one.
      have hcut' : cut c (text ++ (ps.flatMap Piece.text ++ d :: ds')) = (shape, text.length) := by
        generalize ps.flatMap Piece.text = cs at hcut
        cases cs with
        | nil => exact cut_lookahead hcut hopen _
        | cons => exact cut_lookahead hcut hopen _
      rw [List.cons_append, List.append_assoc, ofText_cut hcut', hys, List.append_assoc]

/-! ### Filler between pieces -/

/-- A comment says nothing up to the end of its line. -/
theorem Symbol.ofText_comment {ds rest : List Char} (hn : '\n' ∉ ds)
    (hstop : ∀ c ∈ rest.head?, c = '\n') : ofText ('/' :: '/' :: (ds ++ rest)) = ofText rest := by
  have hrun : Lexeme.run (· != '\n') (ds ++ rest) = ds.length := by
    refine congrArg List.length (Text.takeWhile_run (fun c hc => ?_) fun c hc => ?_)
    · simp only [bne_iff_ne, ne_eq]
      rintro rfl
      exact hn hc
    · simp [hstop c hc]
  have hcut : cut '/' ('/' :: ds ++ rest) = (.comment, ('/' :: ds).length) := by
    rw [List.cons_append, Cuts.comment.cut, hrun]
    rfl
  exact ofText_cut hcut

/-- Filler says nothing. -/
theorem Filler.ofText_append {w : List Char} (h : Filler w) (cs : List Char) :
    ofText (w ++ cs) = ofText cs := by
  induction h with
  | nil => rfl
  | blank hc _ ih => rw [List.cons_append, ofText_gap (isGap_iff.mpr hc), ih]
  | @comment ds w hn _ ih =>
      rw [List.cons_append, List.cons_append, List.append_assoc, List.cons_append,
        ofText_comment hn (by simp), ofText_gap (by decide), ih]

theorem Trailing.ofText_eq_nil {cs : List Char} (h : Trailing cs) : ofText cs = [] := by
  have hnil : ofText [] = [] := by rw [ofText]
  cases h with
  | closed h => rw [← List.append_nil cs, h.ofText_append, hnil]
  | @comment cs ds h hn =>
      rw [h.ofText_append, ← List.append_nil ds, ofText_comment hn (by simp), hnil]

/-- A comment that the source ends in goes on in filler up to the end of a line. -/
theorem Filler.trailing_comment {w : List Char} (h : Filler w) {ds : List Char} (hn : '\n' ∉ ds) :
    Trailing ('/' :: '/' :: (ds ++ w)) := by
  induction h generalizing ds with
  | nil =>
      rw [List.append_nil]
      exact .comment .nil hn
  | @blank c w _ hw ih =>
      by_cases hc : c = '\n'
      · subst hc
        exact .closed (.comment hn hw)
      · rw [List.append_cons]
        exact ih (by simpa [hn] using Ne.symm hc)
  | @comment es w hes hw ih =>
      have heq : ds ++ '/' :: '/' :: (es ++ '\n' :: w) = (ds ++ '/' :: '/' :: es) ++ '\n' :: w := by
        simp
      rw [heq]
      exact .closed (.comment (by simp [hn, hes]) hw)

/-- Filler behind a lexeme says nothing; a comment must be the last. -/
theorem Filler.ofText_behind {c e : Char} {text w rest : List Char} {shape : Shape}
    (hcut : cut c (text ++ rest) = (shape, text.length))
    (ho : .offence ∉ ofText (c :: (text ++ rest))) (hcomment : shape = .comment → rest = [])
    (hw : Filler (e :: w)) (he : isGap e = true) :
    ofText (c :: (text ++ (e :: w ++ rest))) = ofText (c :: (text ++ rest)) := by
  have hmatches : ∀ {q}, pattern? shape (c :: text) = some q → q.Matches (c :: text) := by
    intro q hq
    have hm := matches_cut hcut (p := q)
    rw [List.take_left] at hm
    exact hm hq
  by_cases hgap : shape = .gap
  · subst hgap
    have hg : ∀ d ∈ c :: text, isGap d = true := by
      cases hmatches rfl with
      | gap _ hall => exact fun d hd => isGap_iff.mpr (hall d hd)
    rw [← List.cons_append, ofText_gaps hg, hw.ofText_append, ← List.cons_append, ofText_gaps hg]
  by_cases hcom : shape = .comment
  · subst hcom
    obtain rfl := hcomment rfl
    generalize hct : c :: text = cs at hmatches
    have hm := hmatches rfl
    cases hm with
    | @comment ds hn =>
        cases hct
        rw [List.append_nil, List.append_nil, List.cons_append,
          (hw.trailing_comment hn).ofText_eq_nil]
        exact (Trailing.comment .nil hn).ofText_eq_nil.symm
  · rw [ofText_cut hcut, List.mem_append, not_or] at ho
    obtain ⟨hopen, hstray⟩ := shape_ne_of_not_mem ho.1
    obtain ⟨q, hq⟩ : ∃ q, pattern? shape (c :: text) = some q := by
      cases shape with
      | stray => exact absurd rfl hstray
      | _ => exact ⟨_, rfl⟩
    -- What is cut off matches its pattern, so it is cut off the same way if it stands alone.
    have halone : cut c text = (shape, text.length) :=
      (hmatches hq).cut.trans (by rw [← shape_of_pattern? hq])
    have hbehind := cut_append halone he hgap hopen (fun h => absurd h hcom) (w ++ rest)
    rw [List.cons_append, ofText_cut hbehind, ofText_cut hcut, ← List.cons_append,
      hw.ofText_append]

/-! ### Edges of tokens -/

/-- Between `a` and `b` a token of the text begins or ends, or the text ends there. -/
def Edge (a b : List Char) : Prop :=
  ∃ ps qs, Splits (a ++ b) (ps ++ qs) ∧ ps.flatMap Piece.text = a ∧
    (qs = [] ∨ (∃ q ∈ qs.head?, q.isTrivial = false) ∨ ∃ p ∈ ps.getLast?, p.isTrivial = false)

theorem Splits.drop {ps qs : List Piece} {rest : List Char}
    (h : Splits (ps.flatMap Piece.text ++ rest) (ps ++ qs)) : Splits rest qs := by
  induction ps with
  | nil => exact h
  | cons p ps ih =>
      rw [List.flatMap_cons, List.append_assoc] at h
      generalize hcs : p.text ++ (ps.flatMap Piece.text ++ rest) = cs at h
      cases h with
      | cons _ hs =>
          obtain rfl := List.append_cancel_left hcs
          exact ih hs

/-- Behind a comment no token begins, so an edge there is the end of the text. -/
theorem eq_nil_of_comment {p : Piece} {rest : List Char} {qs : List Piece}
    (hm : Munches (p.text ++ rest) p) (hp : p.pattern = some .comment) (hs : Splits rest qs)
    (hedge : qs = [] ∨ ∃ q ∈ qs.head?, q.isTrivial = false) : rest = [] := by
  obtain ⟨pattern, text⟩ := p
  cases hp
  obtain ⟨-, -, -, hstop⟩ := hm.comment_stops
  rcases hedge with rfl | ⟨q, hq, hqt⟩
  · cases hs
    rfl
  · obtain ⟨qs, rfl⟩ := List.head?_eq_some_iff.mp hq
    obtain ⟨c, text, rest, shape, rfl, hcut, rfl, -⟩ := hs.exists_cut
    obtain rfl : c = '\n' := hstop c rfl
    obtain ⟨rfl, -⟩ := Prod.mk.inj ((cut_gap (by decide) _).symm.trans hcut)
    cases hqt

/-- **Filler may stand at every edge of a token**, if it begins with a blank. -/
theorem Symbol.ofText_insert {a b w : List Char} {e : Char} (hedge : Edge a b)
    (ho : .offence ∉ ofText (a ++ b)) (hw : Filler (e :: w)) (he : isGap e = true) :
    ofText (a ++ (e :: w ++ b)) = ofText (a ++ b) := by
  obtain ⟨ps, qs, hs, rfl, hedge⟩ := hedge
  obtain rfl | ⟨ps, p, rfl⟩ := List.eq_nil_or_concat ps
  · exact hw.ofText_append b
  · simp only [List.concat_eq_append, List.flatMap_append, List.flatMap_singleton,
      List.getLast?_concat, List.append_assoc] at hs ho hedge ⊢
    obtain ⟨c, text, rest, shape, hcs, hcut, rfl, hqs⟩ := hs.drop.exists_cut
    obtain rfl : b = rest := List.append_cancel_left (List.cons.inj hcs).2
    obtain ⟨ys, hys⟩ := ofText_seam hs rfl ho
    have hcomment : shape = .comment → b = [] := by
      rintro rfl
      have hm := munches_cut hcut
      rw [List.take_left] at hm
      refine eq_nil_of_comment (p := piece .comment (c :: text)) hm rfl hqs ?_
      rcases hedge with h | h | ⟨p, ⟨⟩, ⟨⟩⟩
      · exact .inl h
      · exact .inr h
    have hseam : ∀ cs, ofText (ps.flatMap Piece.text ++ ((piece shape (c :: text)).text ++ cs)) =
        ys ++ ofText (c :: (text ++ cs)) := fun cs => hys (text ++ cs)
    rw [hseam, List.mem_append, not_or] at ho
    rw [hseam, hseam, hw.ofText_behind hcut ho.2 hcomment he]

end Treewalk
