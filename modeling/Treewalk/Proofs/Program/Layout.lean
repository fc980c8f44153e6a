import Treewalk.Proofs.Grammar.Places
import Treewalk.Proofs.Lexical.Seams

/-!
# Program — Layout

Blanks and comments between the tokens of a program have no meaning.

* `edge_iff_span`: the edges of tokens in a text are where the spans of its tokens begin and end.
* `exists_lex_of_ofText`, `Script.moved_of_kinds`: texts with the same symbols have tokens of the
  same kinds, hence the same tree, or the same error at two places.
* `layout_is_free`: filler that begins with a blank can be put at every edge.
-/

namespace Treewalk

open Lexeme Treewalk.Symbol

/-! ### Edges and spans -/

/-- Behind the pieces `before`, one of the pieces is a token and stands at the span. -/
def StandsAt (before ps : List Piece) (s : Span) : Prop :=
  ∃ (qs rs : List Piece) (p : Piece), ps = qs ++ p :: rs ∧ p.isTrivial = false ∧
    p.span (before ++ qs) = s

theorem standsAt_cons {before ps : List Piece} {p : Piece} {s : Span} :
    StandsAt before (p :: ps) s ↔
      p.isTrivial = false ∧ p.span before = s ∨ StandsAt (before ++ [p]) ps s := by
  constructor
  · rintro ⟨qs, rs, q, heq, hq, hs⟩
    cases qs with
    | nil =>
        cases heq
        exact .inl ⟨hq, by simpa using hs⟩
    | cons q' qs =>
        cases heq
        exact .inr ⟨qs, rs, q, rfl, hq, by simpa using hs⟩
  · rintro (⟨hp, hs⟩ | ⟨qs, rs, q, rfl, hq, hs⟩)
    · exact ⟨[], ps, p, rfl, hp, by simpa using hs⟩
    · exact ⟨p :: qs, rs, q, rfl, hq, by simpa using hs⟩

/-- The tokens stand where the pieces stand that are neither blank nor a comment. -/
theorem Yields.exists_span_iff {before ps : List Piece} {ts : List Token} (h : Yields before ps ts)
    {s : Span} : (∃ t ∈ ts, t.span = s) ↔ StandsAt before ps s := by
  induction h with
  | nil => simp [StandsAt]
  | @skip before ps p ts hk _ ih =>
      have hp : p.isTrivial = true := by cases hk <;> rfl
      rw [standsAt_cons, ih, hp]
      simp
  | @token before ps p k ts hk _ ih =>
      have hp : p.isTrivial = false := by cases hk <;> rfl
      rw [standsAt_cons, ← ih, hp]
      simp

theorem exists_edge {cs : List Char} {ps qs : List Piece} (h : pieces cs = ps ++ qs)
    (hedge : qs = [] ∨ (∃ q ∈ qs.head?, q.isTrivial = false) ∨
      ∃ p ∈ ps.getLast?, p.isTrivial = false) :
    ∃ a b : List Char, cs = a ++ b ∧ bytes a = Piece.total ps ∧ Edge a b := by
  have hs := splits_pieces cs
  rw [h] at hs
  have hcs : cs = ps.flatMap Piece.text ++ qs.flatMap Piece.text := by
    rw [← List.flatMap_append, hs.flatMap_text]
  exact ⟨_, _, hcs, bytes_eq _, ps, qs, hcs ▸ hs, rfl, hedge⟩

/-- The edges of a text lie at its end and at both ends of each token. -/
theorem exists_edge_iff {cs : List Char} {i : Nat} :
    (∃ a b : List Char, cs = a ++ b ∧ bytes a = i ∧ Edge a b) ↔
      i = bytes cs ∨ ∃ (ps qs : List Piece) (p : Piece), pieces cs = ps ++ p :: qs ∧
        p.isTrivial = false ∧ (i = Piece.total ps ∨ i = Piece.total ps + p.size) := by
  constructor
  · rintro ⟨_, b, rfl, rfl, ps, qs, hs, rfl, hedge⟩
    rw [bytes_eq (ps.flatMap Piece.text)]
    rcases hedge with rfl | ⟨q, hq, hqt⟩ | ⟨p, hp, hpt⟩
    · rw [List.append_nil] at hs
      exact .inl (by rw [← hs.flatMap_text, bytes_eq])
    · obtain ⟨qs, rfl⟩ := List.head?_eq_some_iff.mp hq
      exact .inr ⟨ps, qs, q, (splits_iff.mp hs).symm, hqt, .inl rfl⟩
    · obtain ⟨ps, rfl⟩ := List.getLast?_eq_some_iff.mp hp
      refine .inr ⟨ps, qs, p, ?_, hpt, .inr (Piece.total_concat ps p)⟩
      rw [← splits_iff.mp hs, List.append_assoc, List.singleton_append]
  · rintro (rfl | ⟨ps, qs, p, h, hp, rfl | rfl⟩)
    · have htotal : bytes cs = Piece.total (pieces cs) := by
        rw [bytes_eq, Piece.total, (splits_pieces cs).flatMap_text]
      rw [htotal]
      exact exists_edge (List.append_nil _).symm (.inl rfl)
    · exact exists_edge h (.inr (.inl ⟨p, rfl, hp⟩))
    · rw [← Piece.total_concat]
      rw [List.append_cons] at h
      exact exists_edge h (.inr (.inr ⟨p, List.getLast?_concat, hp⟩))

/-- **The edges of tokens are the ends of their spans**, if these hold all offsets. -/
theorem edge_iff_span {source : String} (hsize : source.utf8ByteSize < 4294967296) {ts : List Token}
    (hlex : lex source = .ok ts) (i : Nat) :
    (∃ a b : String, source = a ++ b ∧ a.utf8ByteSize = i ∧ Edge a.toList b.toList) ↔
      ∃ t ∈ ts, i = t.span.start.toNat ∨ i = t.span.stop.toNat := by
  have hchars : (∃ a b : String, source = a ++ b ∧ a.utf8ByteSize = i ∧ Edge a.toList b.toList) ↔
      ∃ a b : List Char, source.toList = a ++ b ∧ bytes a = i ∧ Edge a b := by
    constructor
    · rintro ⟨a, b, rfl, rfl, hedge⟩
      refine ⟨a.toList, b.toList, String.toList_append, ?_, hedge⟩
      rw [bytes_eq, String.ofList_toList]
    · rintro ⟨a, b, hab, rfl, hedge⟩
      refine ⟨.ofList a, .ofList b, ?_, (bytes_eq a).symm, by simpa using hedge⟩
      rw [← String.ofList_append, ← hab, String.ofList_toList]
  obtain ⟨us, hus, rfl⟩ := exists_yields hlex
  have hle : source.utf8ByteSize ≤ Span.limit := Nat.le_of_lt_succ hsize
  have hend := Span.covers_ofRange (Nat.le_refl _) hle
  have hspan : ∀ {ps qs : List Piece} {p : Piece}, pieces source.toList = ps ++ p :: qs →
      (p.span ps).Covers (Piece.total ps) (Piece.total ps + p.size) := by
    intro ps qs p h
    have htotal : Piece.total (ps ++ p :: qs) ≤ Span.limit := by rwa [← h, Piece.total_pieces]
    exact Piece.covers_span htotal
  rw [hchars, exists_edge_iff, bytes_eq, String.ofList_toList]
  constructor
  · rintro (rfl | ⟨ps, qs, p, h, hp, hi⟩)
    · exact ⟨_, List.mem_append_right _ (List.mem_singleton.mpr rfl), .inl hend.1.symm⟩
    · obtain ⟨t, ht, hts⟩ := hus.exists_span_iff.mpr ⟨ps, qs, p, h, hp, rfl⟩
      refine ⟨t, List.mem_append_left _ ht, ?_⟩
      rwa [hts, List.nil_append, (hspan h).1, (hspan h).2]
  · rintro ⟨t, ht, hi⟩
    rcases List.mem_append.mp ht with ht | ht
    · obtain ⟨ps, qs, p, h, hp, hs⟩ := hus.exists_span_iff.mp ⟨t, ht, rfl⟩
      rw [← hs, List.nil_append, (hspan h).1, (hspan h).2] at hi
      exact .inr ⟨ps, qs, p, h, hp, hi⟩
    · cases List.mem_singleton.mp ht
      rw [hend.1, hend.2, or_self] at hi
      exact .inl hi

/-! ### Kinds and trees -/

/-- Texts with the same symbols have tokens of the same kinds. -/
theorem exists_lex_of_ofText {s s' : String} (h : ofText s.toList = ofText s'.toList)
    {ts : List Token} (hlex : lex s = .ok ts) :
    ∃ us, lex s' = .ok us ∧ ts.map (·.kind) = us.map (·.kind) := by
  obtain ⟨ks, hks, -, hts⟩ := lexFrom_reads hlex
  rw [h] at hks
  obtain ⟨us, hus⟩ := exists_lexFrom 0 [] _ _ hks
  obtain ⟨ls, hls, -, hus'⟩ := lexFrom_reads hus
  refine ⟨us, hus, ?_⟩
  rw [hts, hus', hks.unique hls]

theorem Script.tree_eq_mapError {script : Script} {ts : List Token}
    (h : lex script.text = .ok ts) :
    ∃ r, parse ts = some r ∧ script.tree = r.mapError .grammatical := by
  unfold Script.tree
  split
  · next e he => cases h.symm.trans he
  · next ts' hts =>
      cases h.symm.trans hts
      exact ⟨_, (Option.some_get _).symm, rfl⟩

/-- Scripts with tokens of the same kinds have the same tree, or the same error at two places. -/
theorem Script.moved_of_kinds {s s' : Script} {ts us : List Token} (hs : lex s.text = .ok ts)
    (hs' : lex s'.text = .ok us) (h : ts.map (·.kind) = us.map (·.kind)) :
    ∃ r r', s.tree = r.mapError .grammatical ∧ s'.tree = r'.mapError .grammatical ∧ Moved r r' := by
  obtain ⟨r, hr, htree⟩ := tree_eq_mapError hs
  obtain ⟨r', hr', htree'⟩ := tree_eq_mapError hs'
  have hmoved := parse_moved h
  rw [hr, hr'] at hmoved
  cases hmoved with
  | some hm => exact ⟨r, r', htree, htree', hm⟩

/-! ### Programs -/

/-- **Layout does not matter.**  Let a source have tokens.  Filler that begins with a blank can be
put wherever one of them begins or ends, behind the last byte too: there are tokens again, of the
same kinds, and the scripts have the same tree, or errors that tell the same about two places.  As
long as spans hold all offsets, these edges are where the spans begin and end. -/
theorem layout_is_free {source : String} {ts : List Token} (hlex : lex source = .ok ts) :
    (source.utf8ByteSize < 4294967296 → ∀ i,
      (∃ a b : String, source = a ++ b ∧ a.utf8ByteSize = i ∧ Edge a.toList b.toList) ↔
        ∃ t ∈ ts, i = t.span.start.toNat ∨ i = t.span.stop.toNat) ∧
    ∀ a b w : String, source = a ++ b → Edge a.toList b.toList → Filler w.toList →
      (∃ c ∈ w.toList.head?, c ∈ [' ', '\t', '\r', '\n', '\x0c']) →
      ∃ us : List Token, lex (a ++ w ++ b) = .ok us ∧ ts.map (·.kind) = us.map (·.kind) ∧
        ∀ x y, ∃ r r', Script.tree ⟨x, source⟩ = r.mapError .grammatical ∧
          Script.tree ⟨y, a ++ w ++ b⟩ = r'.mapError .grammatical ∧ Moved r r' := by
  refine ⟨fun hsize => edge_iff_span hsize hlex, ?_⟩
  rintro a b w rfl hedge hw ⟨c, hc, hblank⟩
  obtain ⟨cs, hcs⟩ := List.head?_eq_some_iff.mp hc
  have ho := (lex_content hlex).offence_not_mem
  have htext : ofText (a ++ b).toList = ofText (a ++ w ++ b).toList := by
    rw [String.toList_append] at ho ⊢
    rw [hcs] at hw
    rw [String.toList_append, String.toList_append, hcs, List.append_assoc,
      ofText_insert hedge ho hw (isGap_iff.mpr hblank)]
  obtain ⟨us, hus, hkinds⟩ := exists_lex_of_ofText htext hlex
  exact ⟨us, hus, hkinds, fun x y => Script.moved_of_kinds hlex hus hkinds⟩

/-- Between a minus sign and the digits that only a minus sign makes a word, a comment changes
nothing. -/
theorem comment_behind_minus :
    ∃ us, lex ("x=-" ++ "\t// half\n" ++ "9223372036854775808; //") = .ok us ∧
      us.map (·.kind) = [.name "x", .mark .assign, .mark .minus, .number Int64.minValue,
        .mark .semicolon, .finish] := by
  have hlex : lex "x=-9223372036854775808; //" =
      .ok [⟨.name "x", ⟨0, 1⟩⟩, ⟨.mark .assign, ⟨1, 2⟩⟩, ⟨.mark .minus, ⟨2, 3⟩⟩,
        ⟨.number Int64.minValue, ⟨3, 22⟩⟩, ⟨.mark .semicolon, ⟨22, 23⟩⟩, ⟨.finish, ⟨26, 26⟩⟩] :=
    lex_of_toOption (by decide +kernel)
  have hpieces : pieces "x=-9223372036854775808; //".toList =
      [⟨some .name, ['x']⟩, ⟨some (.mark .assign), ['=']⟩, ⟨some (.mark .minus), ['-']⟩] ++
        [⟨some .digits, "9223372036854775808".toList⟩, ⟨some (.mark .semicolon), [';']⟩,
          ⟨some .gap, [' ']⟩, ⟨some .comment, ['/', '/']⟩] := by
    decide +kernel
  have hedge : Edge "x=-".toList "9223372036854775808; //".toList :=
    ⟨_, _, splits_iff.mpr hpieces.symm, rfl, .inr (.inr ⟨_, rfl, rfl⟩)⟩
  have hcomment : Filler ('/' :: '/' :: (" half".toList ++ ['\n'])) := .comment (by decide) .nil
  have hfiller : Filler "\t// half\n".toList := .blank (by decide) hcomment
  obtain ⟨us, hus, hkinds, -⟩ :=
    (layout_is_free hlex).2 _ _ _ rfl hedge hfiller ⟨'\t', rfl, by decide⟩
  exact ⟨us, hus, hkinds.symm⟩

end Treewalk
