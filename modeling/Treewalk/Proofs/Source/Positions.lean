import Treewalk.Proofs.Lexical.Tiling

/-!
# Source — Positions

Which line and column a byte offset has.

* `ofOffset_eq_behind`: the position of an offset counts the ends of line among the characters that
  begin before it, and the characters behind the last of them, both in words.
* `Fits`: words can tell the lines of a text, and its columns.
* `ofOffset_isBehind`: no number begins again at zero in such a text.
* `ofOffset_append`: where the rest of a text begins.
* `ofOffset_before_iff`: between two characters of such a text, a greater offset has a later
  position.
* `positions_embed_offsets`: all of it, and the tokens of a source have later and later positions.
-/

namespace Treewalk

open Lexeme

namespace Position

/-! ### Behind a text -/

/-- The line behind a text, counted from one. -/
def lineBehind (cs : List Char) : Nat := cs.count '\n' + 1

/-- The column behind a text, counted from one. -/
def columnBehind (cs : List Char) : Nat := (cs.reverse.takeWhile (· != '\n')).length + 1

/-- The position behind a text, as far as words can tell it. -/
def behind (cs : List Char) : Position := ⟨.ofNat (lineBehind cs), .ofNat (columnBehind cs)⟩

/-- The position has the line and the column behind the text. -/
def IsBehind (p : Position) (cs : List Char) : Prop :=
  p.line.toNat = lineBehind cs ∧ p.column.toNat = columnBehind cs

theorem after_behind (cs : List Char) (c : Char) : (behind cs).after c = behind (cs ++ [c]) := by
  by_cases h : c = '\n'
  · simp [after, behind, lineBehind, columnBehind, h]
  · simp [after, behind, lineBehind, columnBehind, h]

theorem foldl_after (done cs : List Char) :
    cs.foldl after (behind done) = behind (done ++ cs) := by
  induction cs generalizing done with
  | nil => rw [List.append_nil]; rfl
  | cons c cs ih => rw [List.foldl_cons, after_behind, ih, List.append_assoc]; rfl

/-- Words can tell all lines and columns of the text: there are fewer ends of line in it than the
greatest word, and fewer other characters. -/
def Fits (cs : List Char) : Prop :=
  cs.count '\n' < Span.limit ∧ cs.countP (· != '\n') < Span.limit

instance (cs : List Char) : Decidable (Fits cs) :=
  inferInstanceAs (Decidable (_ ∧ _))

theorem Fits.sublist {cs ds : List Char} (h : Fits ds) (hsub : cs.Sublist ds) : Fits cs :=
  ⟨Nat.lt_of_le_of_lt (hsub.count_le _) h.1, Nat.lt_of_le_of_lt hsub.countP_le h.2⟩

/-- The last line has no more characters than there are in the text beside its ends of line. -/
theorem columnBehind_le (cs : List Char) : columnBehind cs ≤ cs.countP (· != '\n') + 1 := by
  have hall : (cs.reverse.takeWhile (· != '\n')).countP (· != '\n') =
      (cs.reverse.takeWhile (· != '\n')).length :=
    List.countP_eq_length.mpr (List.all_eq_true.mp List.all_takeWhile)
  have hle := (List.takeWhile_sublist (· != '\n') (l := cs.reverse)).countP_le (p := (· != '\n'))
  rw [hall, List.countP_reverse] at hle
  exact Nat.succ_le_succ hle

theorem Fits.isBehind {cs : List Char} (h : Fits cs) : (behind cs).IsBehind cs :=
  ⟨UInt32.toNat_ofNat_of_lt' (Nat.lt_succ_of_le h.1),
    UInt32.toNat_ofNat_of_lt' (Nat.lt_succ_of_le (Nat.le_trans (columnBehind_le cs) h.2))⟩

/-! ### Characters and where they begin -/

/-- The characters, each with the byte at which it begins; the first begins at byte `i`. -/
def placed : Nat → List Char → List (Nat × Char)
  | _, [] => []
  | i, c :: cs => (i, c) :: placed (i + c.utf8Size) cs

/-- The characters of the text that begin before byte `offset`. -/
def begun (source : String) (offset : Nat) : List Char :=
  ((placed 0 source.toList).filter fun e => e.1 < offset).map (·.2)

theorem map_snd_placed (i : Nat) (cs : List Char) : (placed i cs).map (·.2) = cs := by
  induction cs generalizing i with
  | nil => rfl
  | cons c cs ih => rw [placed, List.map_cons, ih]

theorem placed_append (i : Nat) (cs ds : List Char) :
    placed i (cs ++ ds) = placed i cs ++ placed (i + bytes cs) ds := by
  induction cs generalizing i with
  | nil => rfl
  | cons c cs ih => simp only [List.cons_append, placed, ih, bytes_cons, Nat.add_assoc]

theorem mem_placed {i : Nat} {cs : List Char} {e : Nat × Char} (h : e ∈ placed i cs) :
    i ≤ e.1 ∧ e.1 < i + bytes cs := by
  induction cs generalizing i with
  | nil => cases h
  | cons c cs ih =>
      have hpos := c.utf8Size_pos
      rw [bytes_cons]
      rcases List.mem_cons.mp h with rfl | h
      · exact ⟨Nat.le_refl _, by omega⟩
      · have hmem := ih h
        omega

theorem placed_toList (before after : String) :
    placed 0 (before ++ after).toList =
      placed 0 before.toList ++ placed before.utf8ByteSize after.toList := by
  rw [String.toList_append, placed_append, Nat.zero_add, bytes_toList]

theorem lt_of_mem_placed {s : String} {e : Nat × Char} (h : e ∈ placed 0 s.toList) :
    e.1 < s.utf8ByteSize := by
  have hmem := (mem_placed h).2
  rwa [Nat.zero_add, bytes_toList] at hmem

/-- A character has been passed exactly when it begins before the offset. -/
theorem advance_eq_foldl (p : Position) (offset i : Nat) (cs : List Char) :
    p.advance (offset - i) cs =
      (((placed i cs).filter fun e => e.1 < offset).map (·.2)).foldl after p := by
  induction cs generalizing p i with
  | nil => cases offset - i <;> rfl
  | cons c cs ih =>
      rw [placed, List.filter_cons]
      by_cases hlt : i < offset
      · obtain ⟨k, hk⟩ : ∃ k, offset - i = k + 1 := ⟨offset - i - 1, by omega⟩
        rw [if_pos (by simpa using hlt), hk, advance, ← hk, Nat.sub_sub, ih]
        rfl
      · -- All characters from here on begin behind the offset.
        have hzero : offset - i = 0 := by omega
        have hrest : offset - (i + c.utf8Size) = 0 := by omega
        rw [if_neg (by simpa using hlt), ← ih, hzero, hrest]
        cases cs <;> rfl

/-- **The position of an offset** is the one behind the characters that begin before it. -/
theorem ofOffset_eq_behind (source : String) (offset : Nat) :
    ofOffset source offset = behind (begun source offset) := by
  have h := advance_eq_foldl first offset 0 source.toList
  rw [Nat.sub_zero] at h
  rw [ofOffset, h]
  exact foldl_after [] _

/-- The characters of the first part of a text are those that begin before the offset, if they do
and no character of the second part does. -/
theorem begun_append {before after : String} {offset : Nat}
    (hlt : ∀ e ∈ placed 0 before.toList, e.1 < offset)
    (hge : ∀ e ∈ placed before.utf8ByteSize after.toList, offset ≤ e.1) :
    begun (before ++ after) offset = before.toList := by
  have hkeep : (placed 0 before.toList).filter (fun e => e.1 < offset) =
      placed 0 before.toList :=
    List.filter_eq_self.mpr fun e he => decide_eq_true (hlt e he)
  have hdrop : (placed before.utf8ByteSize after.toList).filter (fun e => e.1 < offset) = [] :=
    List.filter_eq_nil_iff.mpr fun e he => by simpa using hge e he
  rw [begun, placed_toList, List.filter_append, hkeep, hdrop, List.append_nil, map_snd_placed]

/-- **Where the rest of a text begins.** -/
theorem ofOffset_append (before after : String) :
    ofOffset (before ++ after) before.utf8ByteSize = behind before.toList := by
  rw [ofOffset_eq_behind, begun_append (fun _ => lt_of_mem_placed) fun _ he => (mem_placed he).1]

/-- A character begins before every offset inside it. -/
theorem begun_inside {before after : String} {c : Char} {offset : Nat}
    (hlt : before.utf8ByteSize < offset) (hle : offset ≤ before.utf8ByteSize + c.utf8Size) :
    begun (before ++ String.singleton c ++ after) offset = before.toList ++ [c] := by
  rw [begun_append ?_ ?_, String.toList_append, String.toList_singleton]
  · intro e he
    rw [placed_toList, String.toList_singleton] at he
    rcases List.mem_append.mp he with he | he
    · exact Nat.lt_trans (lt_of_mem_placed he) hlt
    · cases List.mem_singleton.mp he
      exact hlt
  · intro e he
    rw [String.utf8ByteSize_append, String.utf8ByteSize_singleton] at he
    exact Nat.le_trans hle (mem_placed he).1

/-- All characters begin before the end of the text. -/
theorem begun_of_le {source : String} {offset : Nat} (h : source.utf8ByteSize ≤ offset) :
    begun source offset = source.toList := by
  have hall : begun (source ++ "") offset = source.toList :=
    begun_append (fun e he => Nat.lt_of_lt_of_le (lt_of_mem_placed he) h) fun e he => by cases he
  rwa [String.append_empty] at hall

theorem begun_sublist (source : String) (offset : Nat) :
    (begun source offset).Sublist source.toList := by
  have hsub := (List.filter_sublist (p := fun e => e.1 < offset)
    (l := placed 0 source.toList)).map (·.2)
  rwa [map_snd_placed] at hsub

/-- **The position of an offset is the true one** in a text whose lines and columns words can
tell. -/
theorem ofOffset_isBehind {source : String} (hfits : Fits source.toList) (offset : Nat) :
    (ofOffset source offset).IsBehind (begun source offset) := by
  rw [ofOffset_eq_behind]
  exact (hfits.sublist (begun_sublist source offset)).isBehind

/-! ### Order -/

/-- `p.Before q`: on an earlier line, or on the same one and in an earlier column. -/
def Before (p q : Position) : Prop :=
  p.line < q.line ∨ p.line = q.line ∧ p.column < q.column

instance (p q : Position) : Decidable (p.Before q) :=
  inferInstanceAs (Decidable (_ ∨ _))

theorem before_iff {p q : Position} : p.Before q ↔ p.line.toNat < q.line.toNat ∨
    p.line.toNat = q.line.toNat ∧ p.column.toNat < q.column.toNat := by
  rw [Before, UInt32.lt_iff_toNat_lt, UInt32.lt_iff_toNat_lt, UInt32.toNat_inj]

theorem Before.asymm {p q : Position} (h : p.Before q) : ¬ q.Before p := by
  rw [before_iff] at h ⊢
  omega

/-- A text that is not empty moves the line on, or the column in the same line. -/
theorem behind_append (cs : List Char) {ds : List Char} (hne : ds ≠ []) :
    lineBehind cs < lineBehind (cs ++ ds) ∨
      lineBehind cs = lineBehind (cs ++ ds) ∧ columnBehind cs < columnBehind (cs ++ ds) := by
  have hcount : (cs ++ ds).count '\n' = cs.count '\n' + ds.count '\n' := List.count_append
  by_cases hline : '\n' ∈ ds
  · have hpos : 0 < ds.count '\n' := List.count_pos_iff.mpr hline
    exact .inl (by unfold lineBehind; omega)
  · have hzero : ds.count '\n' = 0 := List.count_eq_zero.mpr hline
    have htake : (cs ++ ds).reverse.takeWhile (· != '\n') =
        ds.reverse ++ cs.reverse.takeWhile (· != '\n') := by
      rw [List.reverse_append, List.takeWhile_append_of_pos]
      intro c hc
      rw [bne_iff_ne]
      rintro rfl
      exact hline (List.mem_reverse.mp hc)
    have hpos : 0 < ds.length := List.length_pos_iff.mpr hne
    refine .inr ⟨by unfold lineBehind; omega, ?_⟩
    rw [columnBehind, columnBehind, htake, List.length_append, List.length_reverse]
    omega

theorem IsBehind.before {p q : Position} {cs ds : List Char} (hp : p.IsBehind cs)
    (hq : q.IsBehind (cs ++ ds)) (hne : ds ≠ []) : p.Before q := by
  obtain ⟨hpl, hpc⟩ := hp
  obtain ⟨hql, hqc⟩ := hq
  rw [before_iff, hpl, hpc, hql, hqc]
  exact behind_append cs hne

/-- Of two beginnings of a text, the shorter is a beginning of the longer. -/
theorem exists_between {b₁ a₁ b₂ a₂ : String} (h : b₁ ++ a₁ = b₂ ++ a₂)
    (hlt : b₁.utf8ByteSize < b₂.utf8ByteSize) :
    ∃ ds, ds ≠ [] ∧ b₂.toList = b₁.toList ++ ds := by
  rw [← String.toList_inj, String.toList_append, String.toList_append] at h
  rw [← bytes_toList, ← bytes_toList] at hlt
  rcases List.append_eq_append_iff.mp h with ⟨ds, hds, -⟩ | ⟨ds, hds, -⟩
  · refine ⟨ds, ?_, hds⟩
    rintro rfl
    rw [hds, List.append_nil] at hlt
    exact absurd hlt (Nat.lt_irrefl _)
  · rw [hds, bytes_append] at hlt
    omega

section Order

variable {source : String} (hfits : Fits source.toList) {i j : Nat}
  (hi : String.Pos.Raw.IsValid source ⟨i⟩) (hj : String.Pos.Raw.IsValid source ⟨j⟩)
include hfits hi hj

/-- **Between characters, a greater offset has a later position.** -/
theorem before_of_lt (hlt : i < j) : (ofOffset source i).Before (ofOffset source j) := by
  obtain ⟨b₁, a₁, rfl, hb₁⟩ := String.Pos.Raw.isValid_iff_exists_append.mp hi
  obtain ⟨b₂, a₂, hsource, hb₂⟩ := String.Pos.Raw.isValid_iff_exists_append.mp hj
  cases hb₁
  cases hb₂
  obtain ⟨ds, hne, hds⟩ := exists_between hsource hlt
  have hlater : ofOffset (b₁ ++ a₁) b₂.utf8ByteSize = behind b₂.toList := by
    rw [hsource, ofOffset_append]
  have hfits₁ : Fits b₁.toList := by
    rw [String.toList_append] at hfits
    exact hfits.sublist (List.sublist_append_left ..)
  have hfits₂ : Fits b₂.toList := by
    rw [hsource, String.toList_append] at hfits
    exact hfits.sublist (List.sublist_append_left ..)
  change (ofOffset (b₁ ++ a₁) b₁.utf8ByteSize).Before (ofOffset (b₁ ++ a₁) b₂.utf8ByteSize)
  rw [ofOffset_append, hlater]
  exact hfits₁.isBehind.before (hds ▸ hfits₂.isBehind) hne

theorem ofOffset_before_iff : (ofOffset source i).Before (ofOffset source j) ↔ i < j := by
  refine ⟨fun h => ?_, before_of_lt hfits hi hj⟩
  rcases Nat.lt_trichotomy i j with hlt | rfl | hgt
  · exact hlt
  · exact absurd h h.asymm
  · exact absurd h (before_of_lt hfits hj hi hgt).asymm

/-- Two places between characters have two positions. -/
theorem ofOffset_inj (h : ofOffset source i = ofOffset source j) : i = j := by
  rcases Nat.lt_trichotomy i j with hlt | heq | hgt
  · have hbefore := before_of_lt hfits hi hj hlt
    rw [h] at hbefore
    exact absurd hbefore hbefore.asymm
  · exact heq
  · have hbefore := before_of_lt hfits hj hi hgt
    rw [h] at hbefore
    exact absurd hbefore hbefore.asymm

end Order

end Position

/-! ### Tokens -/

namespace Tiled

variable {offset : Nat} {cs : List Char} {ts : List Token}

/-- Each token begins behind the beginning of those in front of it. -/
theorem start_lt (h : Tiled offset cs ts) :
    ts.Pairwise fun t u => t.span.start < u.span.start := by
  induction h with
  | finish => exact List.pairwise_singleton _ _
  | token _ hl hc h ih =>
      refine List.pairwise_cons.mpr ⟨fun u hu => UInt32.lt_iff_toNat_lt.mpr ?_, ih⟩
      have hle := h.le_start hu
      have hpos := hl.size_pos
      rw [← bytes_eq] at hpos
      rw [hc.1]
      exact Nat.lt_of_lt_of_le (Nat.lt_add_of_pos_right hpos) hle

/-- Tokens begin between characters. -/
theorem isValid_start {source : String} (h : Tiled 0 source.toList ts) {t : Token} (ht : t ∈ ts) :
    String.Pos.Raw.IsValid source ⟨t.span.start.toNat⟩ := by
  obtain ⟨us, vs, hts⟩ := List.append_of_mem ht
  obtain ⟨before, gap, text, after, hsource, -, hspan, -⟩ := h.place hts
  refine String.Pos.Raw.isValid_iff_exists_append.mpr
    ⟨.ofList (before ++ gap), .ofList (text ++ after), ?_, ?_⟩
  · rw [← String.toList_inj, hsource]
    simp
  · rw [hspan.1, Nat.zero_add, bytes_eq]
    rfl

end Tiled

/-- **Positions keep the order of places.**  Let a source have offsets that fit into a span, and
lines and columns that words can tell.  The position of a span is one line for each end of line
among the characters that begin before its start, and one column for each such character behind the
last of these, both counted from one.  So a start inside a character counts that character, and one
behind the text counts all of it.  Of two spans that start between characters, the one with the
greater start has the later position, and none other is at that position.  The tokens of the source
have later and later positions. -/
theorem positions_embed_offsets {source : String} (hsize : source.utf8ByteSize < 4294967296)
    (hfits : Position.Fits source.toList) :
    (∀ s : Span, (s.position source).IsBehind (Position.begun source s.start.toNat)) ∧
    (∀ (before after : String) (c : Char) (s : Span),
      source = before ++ String.singleton c ++ after → before.utf8ByteSize < s.start.toNat →
      s.start.toNat ≤ before.utf8ByteSize + c.utf8Size →
      (s.position source).IsBehind (before.toList ++ [c])) ∧
    (∀ s : Span, source.utf8ByteSize ≤ s.start.toNat →
      (s.position source).IsBehind source.toList) ∧
    (∀ s t : Span, String.Pos.Raw.IsValid source ⟨s.start.toNat⟩ →
      String.Pos.Raw.IsValid source ⟨t.start.toNat⟩ →
      ((s.position source).Before (t.position source) ↔ s.start < t.start) ∧
      (s.position source = t.position source ↔ s.start = t.start)) ∧
    ∀ ts, lex source = .ok ts →
      (ts.map fun t => t.span.position source).Pairwise Position.Before := by
  have hbehind : ∀ s : Span, (s.position source).IsBehind (Position.begun source s.start.toNat) :=
    fun s => Position.ofOffset_isBehind hfits s.start.toNat
  refine ⟨hbehind, ?_, fun s hle => ?_, fun s t hs ht => ⟨?_, fun h => ?_, fun h => ?_⟩, ?_⟩
  · rintro before after c s rfl hlt hle
    exact Position.begun_inside hlt hle ▸ hbehind s
  · exact Position.begun_of_le hle ▸ hbehind s
  · rw [UInt32.lt_iff_toNat_lt]
    exact Position.ofOffset_before_iff hfits hs ht
  · exact UInt32.toNat_inj.mp (Position.ofOffset_inj hfits hs ht h)
  · rw [Span.position, Span.position, h]
  · intro ts hlex
    have htiled := tiled_of_lex hsize hlex
    rw [List.pairwise_map]
    exact htiled.start_lt.imp_of_mem fun ht hu hlt =>
      Position.before_of_lt hfits (htiled.isValid_start ht) (htiled.isValid_start hu)
        (UInt32.lt_iff_toNat_lt.mp hlt)

/-- A comment with a character of two bytes, a line behind it, and offsets inside that character and
behind the text. -/
theorem positions_behind_comment :
    let source := "// é\nx=\"ü\";"
    source.utf8ByteSize < 4294967296 ∧ Position.Fits source.toList ∧
      ∃ ts, lex source = .ok ts ∧
        (ts.map fun t => t.span.position source) = [⟨2, 1⟩, ⟨2, 2⟩, ⟨2, 3⟩, ⟨2, 6⟩, ⟨2, 7⟩] ∧
        (ts.map fun t => t.span.position source).Pairwise Position.Before ∧
        (Span.position ⟨4, 5⟩ source).IsBehind "// é".toList ∧
        (Span.position ⟨99, 99⟩ source).IsBehind source.toList ∧
        (Span.position ⟨3, 5⟩ source).Before (Span.position ⟨5, 6⟩ source) ∧
        Span.position ⟨5, 6⟩ source ≠ Span.position ⟨6, 7⟩ source := by
  intro source
  have hsize : source.utf8ByteSize < 4294967296 := by decide +kernel
  have hfits : Position.Fits source.toList := by decide +kernel
  have hlex : lex source = .ok [⟨.name "x", ⟨6, 7⟩⟩, ⟨.mark .assign, ⟨7, 8⟩⟩,
      ⟨.text "ü", ⟨8, 12⟩⟩, ⟨.mark .semicolon, ⟨12, 13⟩⟩, ⟨.finish, ⟨13, 13⟩⟩] :=
    lex_of_toOption (by decide +kernel)
  obtain ⟨-, hinside, hend, horder, htokens⟩ := positions_embed_offsets hsize hfits
  have h3 : String.Pos.Raw.IsValid source ⟨3⟩ := by decide +kernel
  have h5 : String.Pos.Raw.IsValid source ⟨5⟩ := by decide +kernel
  have h6 : String.Pos.Raw.IsValid source ⟨6⟩ := by decide +kernel
  refine ⟨hsize, hfits, _, hlex, by decide +kernel, htokens _ hlex, ?_,
    hend ⟨99, 99⟩ (by decide +kernel), (horder ⟨3, 5⟩ ⟨5, 6⟩ h3 h5).1.mpr (by decide),
    mt (horder ⟨5, 6⟩ ⟨6, 7⟩ h5 h6).2.mp (by decide)⟩
  exact hinside "// " "\nx=\"ü\";" 'é' ⟨4, 5⟩ (by decide +kernel) (by decide +kernel)
    (by decide +kernel)

/-! ### A text without room for its end -/

theorem utf8ByteSize_replicate {c : Char} (hc : c.utf8Size = 1) (n : Nat) :
    (String.ofList (List.replicate n c)).utf8ByteSize = n := by
  induction n with
  | zero => rfl
  | succ n ih =>
      rw [List.replicate_succ, String.ofList_cons, String.utf8ByteSize_append,
        String.utf8ByteSize_singleton, hc, ih, Nat.add_comm]

theorem Position.ofOffset_zero (source : String) : ofOffset source 0 = first := by
  rw [ofOffset]
  cases source.toList <;> rfl

/-- Behind nothing but ends of line. -/
theorem Position.behind_lines (n : Nat) :
    lineBehind (List.replicate n '\n') = n + 1 ∧ columnBehind (List.replicate n '\n') = 1 := by
  constructor
  · rw [lineBehind, List.count_replicate_self]
  · rw [columnBehind, List.reverse_replicate, List.takeWhile_replicate]
    rfl

/-- Behind one character again and again, on one line. -/
theorem Position.behind_line {c : Char} (hc : c ≠ '\n') (n : Nat) :
    lineBehind (List.replicate n c) = 1 ∧ columnBehind (List.replicate n c) = n + 1 := by
  constructor
  · rw [lineBehind, List.count_eq_zero.mpr fun h => hc (List.eq_of_mem_replicate h).symm]
  · rw [columnBehind, List.reverse_replicate, List.takeWhile_replicate, if_pos (bne_iff_ne.mpr hc),
      List.length_replicate]

/-- As many ends of line as the greatest offset counts, and nothing else: the line behind them is
one more than a word can tell, and is zero. -/
theorem line_behind_lines_begins_again :
    let source := String.ofList (List.replicate 4294967295 '\n')
    let start : Span := ⟨0, 0⟩
    let stop : Span := ⟨4294967295, 4294967295⟩
    source.utf8ByteSize < 4294967296 ∧
      Position.lineBehind (Position.begun source stop.start.toNat) = 4294967296 ∧
      stop.position source = ⟨0, 1⟩ ∧
      ¬ (stop.position source).IsBehind (Position.begun source stop.start.toNat) ∧
      start.start < stop.start ∧ ¬ (start.position source).Before (stop.position source) := by
  intro source start stop
  -- The list is counted by lemmas about `replicate`; evaluating it would write it out.
  have hsize : source.utf8ByteSize = 4294967295 := utf8ByteSize_replicate (by decide) _
  have hle : source.utf8ByteSize ≤ stop.start.toNat := Nat.le_of_eq hsize
  have hbegun : Position.begun source stop.start.toNat = List.replicate 4294967295 '\n' := by
    rw [Position.begun_of_le hle, String.toList_ofList]
  obtain ⟨hline, hcolumn⟩ := Position.behind_lines 4294967295
  have hstop : stop.position source = ⟨0, 1⟩ := by
    rw [Span.position, Position.ofOffset_eq_behind, hbegun, Position.behind, hline, hcolumn]
    rfl
  have hstart : start.position source = ⟨1, 1⟩ := Position.ofOffset_zero source
  rw [hstop, hstart, hbegun, hsize]
  refine ⟨by decide, hline, rfl, fun h => ?_, by decide, by decide⟩
  have hzero := h.1
  rw [hline] at hzero
  exact absurd hzero (by decide)

end Treewalk
