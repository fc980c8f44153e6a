import Treewalk.Proofs.Lexical.Tokens

/-!
# Lexical — Tokens tile the source

Nothing of a source is lost between its tokens but blanks and comments, and each token stands for
the bytes of its span alone.

* `Filler`, `Trailing`: what may stand between two tokens, and what behind the last.
* `Lexes`: a text that is one lexeme.  Cut out of its source it gives the token again
  (`lex_alone_iff`), but for digits that only a minus sign in front of them makes a word.
* `Tiled`: tokens that make up a source.  Every source that has tokens is tiled by them
  (`tiled_of_yields`), as long as its offsets fit into a span.
-/

namespace Treewalk

open Lexeme

/-! ### Between tokens -/

/-- Blanks, and comments with the end of their line. -/
inductive Filler : List Char → Prop where
  | nil : Filler []
  | blank {c : Char} {cs : List Char} : c ∈ [' ', '\t', '\r', '\n', '\x0c'] → Filler cs →
      Filler (c :: cs)
  | comment {cs rest : List Char} : '\n' ∉ cs → Filler rest →
      Filler ('/' :: '/' :: (cs ++ '\n' :: rest))

/-- The same up to the end of the source, where the last comment need not have an end of line. -/
inductive Trailing : List Char → Prop where
  | closed {cs : List Char} : Filler cs → Trailing cs
  | comment {cs ds : List Char} : Filler cs → '\n' ∉ ds → Trailing (cs ++ '/' :: '/' :: ds)

theorem Filler.append {cs ds : List Char} (h : Filler cs) (h' : Filler ds) : Filler (cs ++ ds) := by
  induction h with
  | nil => exact h'
  | blank hc _ ih => exact .blank hc ih
  | comment hn _ ih =>
      rw [List.cons_append, List.cons_append, List.append_assoc, List.cons_append]
      exact .comment hn ih

theorem Filler.trailing_append {cs ds : List Char} (h : Filler cs) (h' : Trailing ds) :
    Trailing (cs ++ ds) := by
  cases h' with
  | closed h' => exact .closed (h.append h')
  | comment h' hn =>
      rw [← List.append_assoc]
      exact .comment (h.append h') hn

theorem filler_of_blanks {cs : List Char} (h : ∀ c ∈ cs, c ∈ [' ', '\t', '\r', '\n', '\x0c']) :
    Filler cs := by
  induction cs with
  | nil => exact .nil
  | cons c cs ih =>
      rw [List.forall_mem_cons] at h
      exact .blank h.1 (ih h.2)

theorem Filler.of_line {cs : List Char} (h : Filler ('\n' :: cs)) : Filler cs := by
  cases h with
  | blank _ h => exact h

theorem Trailing.of_line {cs : List Char} (h : Trailing ('\n' :: cs)) : Trailing cs := by
  generalize hs : '\n' :: cs = text at h
  cases h with
  | closed h =>
      subst hs
      exact .closed h.of_line
  | @comment ds es h hn =>
      cases ds with
      | nil => cases hs
      | cons d ds =>
          cases hs
          exact .comment h.of_line hn

/-! ### Lexemes that stand alone -/

/-- The text is one lexeme, which gives a token of kind `k` behind some tokens at least. -/
def Lexes (text : List Char) (k : TokenKind) : Prop :=
  ∃ p m, Munches text ⟨p, text⟩ ∧ Piece.Gives m ⟨p, text⟩ (some k)

/-- A piece begins its own text. -/
theorem Munches.alone {p : Piece} {rest : List Char} (h : Munches (p.text ++ rest) p) :
    Munches p.text p := by
  generalize hs : p.text ++ rest = cs at h
  cases h with
  | longest ht hm hmax hlit =>
      refine .longest (List.prefix_refl _) hm (fun q t hq => hmax q t ?_) hlit
      exact hs ▸ hq.trans (List.prefix_append _ _)
  | @stray c cs hno =>
      refine .stray fun q t ht => hno q t (ht.trans ?_)
      exact ⟨cs, rfl⟩

theorem Munches.matches_text {cs text : List Char} {q : Pattern} (h : Munches cs ⟨some q, text⟩) :
    q.Matches text := by
  cases h with
  | longest _ hm => exact hm

theorem Munches.length_le {cs text t : List Char} {p q : Pattern} (h : Munches cs ⟨some p, text⟩)
    (ht : t <+: cs) (hq : q.Matches t) : t.length ≤ text.length := by
  cases h with
  | longest _ _ hmax => exact hmax q t ht hq

/-- The end of a line begins blanks only. -/
theorem Pattern.Matches.eq_gap {q : Pattern} {cs : List Char} (h : q.Matches ('\n' :: cs)) :
    q = .gap := by
  have hcut := (cut_gap (by decide : isGap '\n' = true) cs).symm.trans h.cut
  cases q <;> first | rfl | cases hcut

theorem Lexes.ne_nil {text : List Char} {k : TokenKind} (h : Lexes text k) : text ≠ [] := by
  obtain ⟨p, m, hm, -⟩ := h
  exact hm.ne_nil

theorem Lexes.size_pos {text : List Char} {k : TokenKind} (h : Lexes text k) :
    0 < (String.ofList text).utf8ByteSize := by
  obtain ⟨c, cs, rfl⟩ := List.exists_cons_of_ne_nil h.ne_nil
  rw [String.ofList_cons, String.utf8ByteSize_append, String.utf8ByteSize_singleton]
  exact Nat.add_pos_left c.utf8Size_pos _

theorem Lexes.ne_line {text : List Char} {k : TokenKind} (h : Lexes text k) (cs : List Char) :
    text ≠ '\n' :: cs := by
  rintro rfl
  obtain ⟨p, m, hm, hg⟩ := h
  cases p with
  | none => cases hg
  | some q =>
      cases hm.matches_text.eq_gap
      cases hg

theorem Lexes.ne_finish {text : List Char} {k : TokenKind} (h : Lexes text k) : k ≠ .finish := by
  obtain ⟨p, m, -, hg⟩ := h
  cases hg <;> exact fun h => by cases h

/-- What a piece gives behind a minus sign it gives alone, but for the least word. -/
theorem gives_alone_iff {p : Piece} {m : Bool} {k : TokenKind} (h : p.Gives m (some k)) :
    p.Gives false (some k) ↔ k ≠ .number Int64.minValue := by
  cases h with
  | @number n cs hle hn =>
      refine iff_of_true (.number hle hn) fun hk => ?_
      cases hk
      have hmin : Int64.minValue.toInt = -9223372036854775808 := rfl
      omega
  | @least cs _ hv =>
      refine iff_of_false (fun h => ?_) fun h => h rfl
      obtain ⟨w, hw, -⟩ := gives_digits_iff.mp h
      obtain ⟨-, hlt | ⟨⟨⟩, -⟩⟩ := Symbol.literal?_eq_some_iff.mp hw
      rw [hv] at hlt
      exact absurd hlt (by decide)
  | keyword => exact iff_of_true .keyword fun h => by cases h
  | mark => exact iff_of_true .mark fun h => by cases h
  | text hm => exact iff_of_true (.text hm) fun h => by cases h
  | name => exact iff_of_true .name fun h => by cases h

/-- **A lexeme on its own is lexed to its token**, unless the token is the least word. -/
theorem lex_alone_iff {text : List Char} {k : TokenKind} (h : Lexes text k) :
    (∃ ts, lex (String.ofList text) = .ok ts ∧ ts.map (·.kind) = [k, .finish]) ↔
      k ≠ .number Int64.minValue := by
  obtain ⟨p, m, hm, hg⟩ := h
  have hpieces : pieces text = [⟨p, text⟩] := by
    have hs : Splits (text ++ []) [⟨p, text⟩] :=
      .cons (p := ⟨p, text⟩) (by rwa [List.append_nil]) .nil
    rw [List.append_nil] at hs
    exact (splits_iff.mp hs).symm
  have hlex : ∀ ts, lex (String.ofList text) = .ok ts ↔ _ :=
    fun _ => lexFrom_eq_ok_iff 0 [] _ [] ⟨rfl, rfl⟩
  simp only [String.toList_ofList, hpieces] at hlex
  rw [← gives_alone_iff hg]
  constructor
  · rintro ⟨ts, hts, hk⟩
    obtain ⟨us, hus, rfl⟩ := (hlex ts).mp hts
    cases hus with
    | skip _ h =>
        cases h
        simp at hk
    | token hk' h =>
        cases h
        simp only [List.reverse_nil, List.nil_append, List.singleton_append, List.map_cons,
          List.map_nil, List.cons.injEq, and_true] at hk
        exact hk ▸ hk'
  · intro hk
    exact ⟨_, (hlex _).mpr ⟨_, .token hk .nil, rfl⟩, rfl⟩

/-! ### Tilings -/

theorem Lexeme.bytes_append (cs ds : List Char) : bytes (cs ++ ds) = bytes cs + bytes ds := by
  rw [bytes_eq, bytes_eq, bytes_eq, String.ofList_append, String.utf8ByteSize_append]

theorem Lexeme.bytes_cons (c : Char) (cs : List Char) :
    bytes (c :: cs) = c.utf8Size + bytes cs := by
  rw [bytes_eq, bytes_eq, String.ofList_cons, String.utf8ByteSize_append,
    String.utf8ByteSize_singleton]

theorem Lexeme.bytes_toList (s : String) : bytes s.toList = s.utf8ByteSize := by
  rw [bytes_eq, String.ofList_toList]

/-- The characters `cs` begin at byte `offset` and have the tokens `ts`, the end included: filler
and lexemes in turn, each token at its lexeme. -/
inductive Tiled : Nat → List Char → List Token → Prop where
  | finish {offset : Nat} {gap : List Char} {span : Span} : Trailing gap →
      span.Covers (offset + bytes gap) (offset + bytes gap) → Tiled offset gap [⟨.finish, span⟩]
  | token {offset : Nat} {gap text rest : List Char} {k : TokenKind} {span : Span}
      {ts : List Token} : Filler gap → Lexes text k →
      span.Covers (offset + bytes gap) (offset + bytes gap + bytes text) →
      Tiled (offset + bytes gap + bytes text) rest ts →
      Tiled offset (gap ++ (text ++ rest)) (⟨k, span⟩ :: ts)

namespace Tiled

variable {offset : Nat} {cs : List Char} {ts : List Token}

theorem filler {gap : List Char} (hg : Filler gap) (h : Tiled (offset + bytes gap) cs ts) :
    Tiled offset (gap ++ cs) ts := by
  cases h with
  | finish ht hc =>
      rw [Nat.add_assoc, ← bytes_append] at hc
      exact .finish (hg.trailing_append ht) hc
  | token hf hl hc h =>
      rw [Nat.add_assoc offset, ← bytes_append] at hc h
      rw [← List.append_assoc]
      exact .token (hg.append hf) hl hc h

theorem of_line (h : Tiled offset ('\n' :: cs) ts) : Tiled (offset + bytes ['\n']) cs ts := by
  have hline : ∀ ds, bytes ('\n' :: ds) = bytes ['\n'] + bytes ds := bytes_append ['\n']
  generalize hs : '\n' :: cs = text at h
  cases h with
  | finish ht hc =>
      subst hs
      rw [hline cs, ← Nat.add_assoc] at hc
      exact .finish ht.of_line hc
  | @token _ gap text rest k span ts hf hl hc h =>
      cases gap with
      | nil =>
          -- No lexeme begins with the end of a line, so that is part of the filler.
          obtain ⟨c, text, rfl⟩ := List.exists_cons_of_ne_nil hl.ne_nil
          cases hs
          exact absurd rfl (hl.ne_line text)
      | cons c gap =>
          cases hs
          rw [hline gap, ← Nat.add_assoc] at hc h
          exact .token hf.of_line hl hc h

/-- A comment takes the end of its line from what stands behind it. -/
theorem comment {ds : List Char} (hn : '\n' ∉ ds) (hstop : ∀ c ∈ cs.head?, c = '\n')
    (h : Tiled (offset + bytes ('/' :: '/' :: ds)) cs ts) :
    Tiled offset ('/' :: '/' :: ds ++ cs) ts := by
  cases cs with
  | nil =>
      generalize hs : [] = text at h
      cases h with
      | finish _ hc =>
          subst hs
          rw [List.append_nil]
          exact .finish (.comment .nil hn) hc
      | token _ hl =>
          obtain ⟨-, hs⟩ := List.append_eq_nil_iff.mp hs.symm
          exact absurd (List.append_eq_nil_iff.mp hs).1 hl.ne_nil
  | cons c cs =>
      obtain rfl : c = '\n' := hstop c rfl
      have hgap : Filler ('/' :: '/' :: ds ++ ['\n']) := .comment hn .nil
      have h' := h.of_line
      rw [Nat.add_assoc, ← bytes_append] at h'
      simpa using filler hgap h'

end Tiled

/-- A comment goes on to the end of its line. -/
theorem Munches.comment_stops {text rest : List Char}
    (h : Munches (text ++ rest) ⟨some .comment, text⟩) :
    ∃ ds, text = '/' :: '/' :: ds ∧ '\n' ∉ ds ∧ ∀ c ∈ rest.head?, c = '\n' := by
  cases h.matches_text with
  | @comment ds hn =>
      -- One more character would make a longer comment.
      refine ⟨ds, rfl, hn, fun c hc => Decidable.byContradiction fun hne => ?_⟩
      obtain ⟨rest, rfl⟩ := List.head?_eq_some_iff.mp hc
      have hlonger : Pattern.comment.Matches ('/' :: '/' :: (ds ++ [c])) :=
        .comment (by simpa [hn] using Ne.symm hne)
      have hle := h.length_le ⟨rest, by simp⟩ hlonger
      exact absurd hle (by simp)

theorem Piece.total_append (ps qs : List Piece) : total (ps ++ qs) = total ps + total qs := by
  simp [total]

theorem Piece.covers_span {ps qs : List Piece} {p : Piece}
    (h : total (ps ++ p :: qs) ≤ Span.limit) :
    (p.span ps).Covers (total ps) (total ps + p.size) := by
  rw [List.append_cons, total_append, total_concat] at h
  exact Span.covers_ofRange (Nat.le_add_right _ _) (Nat.le_trans (Nat.le_add_right _ _) h)

/-- **The tokens of the pieces tile the text**, where all offsets fit into a span. -/
theorem tiled_of_yields {before ps : List Piece} {us : List Token} (h : Yields before ps us)
    {cs : List Char} (hs : Splits cs ps) {stop : Nat} (hstop : Piece.total (before ++ ps) = stop)
    (hle : stop ≤ Span.limit) :
    Tiled (Piece.total before) cs (us ++ [⟨.finish, .ofRange stop stop⟩]) := by
  induction h generalizing cs with
  | nil =>
      cases hs
      rw [List.append_nil] at hstop
      subst hstop
      exact .finish (.closed .nil) (Span.covers_ofRange (Nat.le_refl _) hle)
  | @skip before ps p ts hk _ ih =>
      cases hs with
      | @cons _ rest _ hm hs =>
          have h := ih hs (by rwa [List.append_assoc])
          rw [Piece.total_concat, Piece.size, ← bytes_eq] at h
          cases hk with
          | gap =>
              cases hm.matches_text with
              | gap _ hall => exact .filler (filler_of_blanks hall) h
          | comment =>
              obtain ⟨ds, rfl, hn, hline⟩ := hm.comment_stops
              exact .comment hn hline h
  | @token before ps p k ts hk hy ih =>
      cases hs with
      | @cons _ rest _ hm hs =>
          have h := ih hs (by rwa [List.append_assoc])
          have hc := Piece.covers_span (hstop ▸ hle)
          rw [Piece.total_concat, Piece.size, ← bytes_eq] at h
          rw [Piece.size, ← bytes_eq] at hc
          exact .token .nil ⟨p.pattern, _, hm.alone, hk⟩ hc h

namespace Tiled

variable {offset : Nat} {cs : List Char} {ts : List Token}

theorem le_start (h : Tiled offset cs ts) {t : Token} (ht : t ∈ ts) :
    offset ≤ t.span.start.toNat := by
  induction h with
  | finish _ hc =>
      cases List.mem_singleton.mp ht
      exact hc.1 ▸ Nat.le_add_right _ _
  | token _ _ hc _ ih =>
      rcases List.mem_cons.mp ht with rfl | ht
      · exact hc.1 ▸ Nat.le_add_right _ _
      · have hle := ih ht
        omega

/-- The tokens stand one behind another. -/
theorem ordered (h : Tiled offset cs ts) : ts.Pairwise fun t u => t.span.stop ≤ u.span.start := by
  induction h with
  | finish => exact List.pairwise_singleton _ _
  | token _ _ hc h ih =>
      refine List.pairwise_cons.mpr ⟨fun u hu => UInt32.le_iff_toNat_le.mpr ?_, ih⟩
      exact hc.2 ▸ h.le_start hu

/-- The last token is the end, and no other is. -/
theorem exists_concat (h : Tiled offset cs ts) :
    ∃ (us : List Token) (span : Span), ts = us ++ [⟨.finish, span⟩] ∧
      span.Covers (offset + bytes cs) (offset + bytes cs) ∧ ∀ t ∈ us, t.kind ≠ .finish := by
  induction h with
  | finish _ hc => exact ⟨[], _, rfl, hc, fun _ ht => by cases ht⟩
  | @token offset gap text rest k span ts _ hl _ _ ih =>
      obtain ⟨us, last, rfl, hlast, hus⟩ := ih
      refine ⟨⟨k, span⟩ :: us, last, rfl, ?_, List.forall_mem_cons.mpr ⟨hl.ne_finish, hus⟩⟩
      simpa only [bytes_append, Nat.add_assoc] using hlast

/-- **Where a token stands**: behind the token before it, or behind `offset` if it is the first,
comes filler and then its lexeme. -/
theorem place (h : Tiled offset cs ts) {us vs : List Token} {t : Token} (hts : ts = us ++ t :: vs) :
    ∃ before gap text after, cs = before ++ gap ++ text ++ after ∧
      us.getLast?.elim offset (·.span.stop.toNat) = offset + bytes before ∧
      t.span.Covers (offset + bytes (before ++ gap)) (offset + bytes (before ++ gap ++ text)) ∧
      (t.kind = .finish ∧ text = [] ∧ after = [] ∧ Trailing gap ∨
        Lexes text t.kind ∧ Filler gap) := by
  induction h generalizing us with
  | @finish offset gap span ht hc =>
      cases us with
      | nil =>
          cases hts
          exact ⟨[], gap, [], [], by simp, rfl, by simpa using hc, .inl ⟨rfl, rfl, rfl, ht⟩⟩
      | cons u us => simp at hts
  | @token offset gap text rest k span ts hf hl hc _ ih =>
      cases us with
      | nil =>
          cases hts
          refine ⟨[], gap, text, rest, by simp, rfl, ?_, .inr ⟨hl, hf⟩⟩
          simpa only [List.nil_append, bytes_append, Nat.add_assoc] using hc
      | cons u us =>
          obtain ⟨hu, hts⟩ := List.cons.inj hts
          obtain ⟨before, gap', text', after, rfl, hlast, hspan, hkind⟩ := ih hts
          refine ⟨gap ++ text ++ before, gap', text', after, by simp, ?_, ?_, hkind⟩
          · rw [bytes_append, bytes_append, ← Nat.add_assoc, ← Nat.add_assoc, ← hlast,
              List.getLast?_cons, ← hu]
            cases us.getLast? with
            | none => exact hc.2
            | some => rfl
          · simpa only [List.append_assoc, bytes_append, Nat.add_assoc] using hspan

end Tiled

theorem lex_of_toOption {source : String} {ts : List Token} (h : (lex source).toOption = some ts) :
    lex source = .ok ts := by
  cases hl : lex source with
  | error e =>
      rw [hl] at h
      cases h
  | ok us =>
      rw [hl] at h
      rw [Option.some.inj h]

theorem Piece.total_pieces (source : String) :
    total (pieces source.toList) = source.utf8ByteSize := by
  rw [total, (splits_pieces _).flatMap_text, String.ofList_toList]

/-- The tokens of a source are those of its pieces and the end. -/
theorem exists_yields {source : String} {ts : List Token} (h : lex source = .ok ts) :
    ∃ us : List Token, Yields [] (pieces source.toList) us ∧
      ts = us ++ [⟨.finish, .ofRange source.utf8ByteSize source.utf8ByteSize⟩] := by
  obtain ⟨us, hus, rfl⟩ := (lexFrom_eq_ok_iff 0 [] _ [] ⟨rfl, rfl⟩).mp h
  exact ⟨us, hus, by rw [List.nil_append, Piece.total_pieces]; rfl⟩

theorem tiled_of_lex {source : String} (hsize : source.utf8ByteSize < 4294967296) {ts : List Token}
    (h : lex source = .ok ts) : Tiled 0 source.toList ts := by
  obtain ⟨us, hus, rfl⟩ := exists_yields h
  exact tiled_of_yields hus (splits_pieces _) (Piece.total_pieces source) (Nat.le_of_lt_succ hsize)

/-- **Tokens tile the source**, if its offsets fit into a span.  The spans are in order and do not
overlap; the end stands behind the last byte, and only there.  Behind the token before it, or behind
the beginning of the source, each token has filler in front of it and then its own text, which is
not empty and gives the token again if it is lexed alone; the least word alone does not.  In front
of the end the filler may break off inside a comment. -/
theorem tokens_tile_source {source : String} (hsize : source.utf8ByteSize < 4294967296)
    {ts : List Token} (h : lex source = .ok ts) :
    ts.Pairwise (fun t u => t.span.stop ≤ u.span.start) ∧
    (∃ (us : List Token) (span : Span), ts = us ++ [⟨.finish, span⟩] ∧
      span.Covers source.utf8ByteSize source.utf8ByteSize ∧ ∀ t ∈ us, t.kind ≠ .finish) ∧
    ∀ (us vs : List Token) (t : Token), ts = us ++ t :: vs →
      ∃ before gap text after : String, source = before ++ gap ++ text ++ after ∧
        us.getLast?.elim 0 (·.span.stop.toNat) = before.utf8ByteSize ∧
        t.span.Covers (before ++ gap).utf8ByteSize (before ++ gap ++ text).utf8ByteSize ∧
        if t.kind = .finish then text = "" ∧ after = "" ∧ Trailing gap.toList
        else t.span.start < t.span.stop ∧ Filler gap.toList ∧
          ((∃ ws : List Token, lex text = .ok ws ∧ ws.map (·.kind) = [t.kind, .finish]) ↔
            t.kind ≠ .number Int64.minValue) := by
  have htiled := tiled_of_lex hsize h
  refine ⟨htiled.ordered, ?_, fun us vs t hts => ?_⟩
  · have hend := htiled.exists_concat
    rwa [bytes_eq, String.ofList_toList, Nat.zero_add] at hend
  · obtain ⟨before, gap, text, after, hcs, hlast, hspan, hkind⟩ := htiled.place hts
    simp only [Nat.zero_add, bytes_eq, String.ofList_append] at hlast hspan
    refine ⟨.ofList before, .ofList gap, .ofList text, .ofList after, ?_, hlast, hspan, ?_⟩
    · rw [← String.toList_inj, hcs]
      simp
    · rcases hkind with ⟨hk, rfl, rfl, ht⟩ | ⟨hl, hf⟩
      · rw [if_pos hk, String.toList_ofList]
        exact ⟨rfl, rfl, ht⟩
      · rw [if_neg hl.ne_finish, UInt32.lt_iff_toNat_lt, hspan.1, hspan.2, String.toList_ofList]
        refine ⟨?_, hf, lex_alone_iff hl⟩
        rw [String.utf8ByteSize_append (t := .ofList text)]
        exact Nat.lt_add_of_pos_right hl.size_pos

/-- Between a semicolon and a keyword stand seven bytes: a comment, the end of its line and a
blank. -/
theorem comment_before_print :
    ∃ before gap text after : String,
      "s=\"é\";// ü\n\tprint(-9223372036854775808);//" = before ++ gap ++ text ++ after ∧
        before.utf8ByteSize = 7 ∧ (before ++ gap).utf8ByteSize = 14 ∧
        (before ++ gap ++ text).utf8ByteSize = 19 ∧ Filler gap.toList := by
  have hlex : lex "s=\"é\";// ü\n\tprint(-9223372036854775808);//" =
      .ok [⟨.name "s", ⟨0, 1⟩⟩, ⟨.mark .assign, ⟨1, 2⟩⟩, ⟨.text "é", ⟨2, 6⟩⟩,
        ⟨.mark .semicolon, ⟨6, 7⟩⟩, ⟨.keyword .print, ⟨14, 19⟩⟩, ⟨.mark .openParen, ⟨19, 20⟩⟩,
        ⟨.mark .minus, ⟨20, 21⟩⟩, ⟨.number Int64.minValue, ⟨21, 40⟩⟩,
        ⟨.mark .closeParen, ⟨40, 41⟩⟩, ⟨.mark .semicolon, ⟨41, 42⟩⟩, ⟨.finish, ⟨44, 44⟩⟩] :=
    lex_of_toOption (by decide +kernel)
  obtain ⟨-, -, hplace⟩ := tokens_tile_source (by decide +kernel) hlex
  obtain ⟨before, gap, text, after, hsource, hlast, hspan, hkind⟩ := hplace
    [⟨.name "s", ⟨0, 1⟩⟩, ⟨.mark .assign, ⟨1, 2⟩⟩, ⟨.text "é", ⟨2, 6⟩⟩, ⟨.mark .semicolon, ⟨6, 7⟩⟩]
    _ ⟨.keyword .print, ⟨14, 19⟩⟩ rfl
  rw [if_neg (by decide)] at hkind
  obtain ⟨hstart, hstop⟩ := hspan
  exact ⟨before, gap, text, after, hsource, hlast.symm, hstart.symm, hstop.symm, hkind.2.1⟩

end Treewalk
