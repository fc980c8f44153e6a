import Treewalk.Proofs.Lexical.MaximalMunch

/-!
# Lexical — Tokens

What the lexer makes of the pieces of a text.

* `gives_iff`, `offends_iff`: what a piece gives, or why it is an offence, is what the lexer makes
  of it.
* `lexFrom_eq_ok_iff`, `lexFrom_eq_error_iff`: behind what is done already, the lexer comes to the
  tokens of the pieces or to the first offence among them.  Of what is done it needs two things
  only, how many bytes it takes and whether it ends in a minus sign (`Behind`).
* `lex_maximal_munch`: the same of a whole text.
-/

namespace Treewalk

open Lexeme

/-! ### What stands between quotation marks -/

theorem Escape.resolve?_eq_some_iff {c d : Char} :
    resolve? c = some d ↔
      (c, d) ∈
        [('n', '\n'), ('t', '\t'), ('r', '\r'), ('\\', '\\'), ('"', '"'), ('0', '\x00')] := by
  unfold resolve?
  split <;> simp_all [eq_comm]

theorem Escape.resolve?_eq_none_iff {c : Char} :
    resolve? c = none ↔ c ∉ ['n', 't', 'r', '\\', '"', '0'] := by
  unfold resolve?
  split <;> simp_all

theorem Escape.Means.decodeOnto {cs ds : List Char} (h : Means cs ds) (done : List Char) :
    Escape.decodeOnto done cs = done.reverse ++ ds := by
  induction h generalizing done with
  | nil => simp [Escape.decodeOnto]
  | plain hc _ ih =>
      rw [Escape.decodeOnto]
      · rw [ih]
        simp
      · exact fun h => absurd h hc
      · exact fun _ _ h => absurd h hc
  | escape hcd _ ih => simp [Escape.decodeOnto, resolve?_eq_some_iff.mpr hcd, ih]
  | unknown hc _ ih => simp [Escape.decodeOnto, resolve?_eq_none_iff.mpr hc, ih]
  | last => simp [Escape.decodeOnto]

theorem Escape.exists_means (cs : List Char) : ∃ ds, Means cs ds := by
  fun_induction Escape.decodeOnto [] cs with
  | case1 => exact ⟨[], .nil⟩
  | case2 => exact ⟨_, .last⟩
  | case3 done c cs d hd ih =>
      obtain ⟨ds, h⟩ := ih
      exact ⟨_, .escape (resolve?_eq_some_iff.mp hd) h⟩
  | case4 done c cs hd ih =>
      obtain ⟨ds, h⟩ := ih
      exact ⟨_, .unknown (resolve?_eq_none_iff.mp hd) h⟩
  | case5 done c cs h1 h2 ih =>
      obtain ⟨ds, h⟩ := ih
      refine ⟨_, .plain ?_ h⟩
      rintro rfl
      cases cs with
      | nil => exact h1 rfl rfl
      | cons d cs => exact h2 d cs rfl rfl

/-- The decoded text is what is meant. -/
theorem Escape.means_iff {cs ds : List Char} : Means cs ds ↔ decode cs = String.ofList ds := by
  have hdecode : ∀ es, Means cs es → decode cs = String.ofList es := fun es h => by
    rw [decode, h.decodeOnto]
    rfl
  refine ⟨hdecode ds, fun h => ?_⟩
  obtain ⟨es, hes⟩ := exists_means cs
  rwa [← String.ofList_injective ((hdecode es hes).symm.trans h)]

/-! ### What a piece gives -/

section Piece

variable {c : Char} {rest : List Char} {shape : Shape} {n : Nat} {m : Bool} {span : Span}

/-- Digits give the word that they mean. -/
theorem gives_digits_iff {cs : List Char} {k : Option TokenKind} :
    Piece.Gives m ⟨some .digits, cs⟩ k ↔ ∃ w, literal? m cs = some w ∧ k = some (.number w) := by
  have hbound : Numeral.bound = 9223372036854775808 := rfl
  constructor
  · intro h
    cases h with
    | @number w _ hle hw =>
        refine ⟨w, Symbol.literal?_eq_some_iff.mpr ⟨?_, .inl (by omega)⟩, rfl⟩
        rw [← Int64.toInt_inj, hw, Int64.toInt_ofNat_of_lt (by omega)]
    | least hm hv =>
        exact ⟨_, Symbol.literal?_eq_some_iff.mpr ⟨by rw [hv]; rfl, .inr ⟨hm, hv⟩⟩, rfl⟩
  · rintro ⟨w, hw, rfl⟩
    obtain ⟨rfl, hlt | ⟨hm, hv⟩⟩ := Symbol.literal?_eq_some_iff.mp hw
    · exact .number (by omega) (Int64.toInt_ofNat_of_lt (by omega))
    · rw [hv]
      exact .least hm hv

theorem gives_text_iff {body : List Char} {k : Option TokenKind} :
    Piece.Gives m ⟨some .closedText, '"' :: (body ++ ['"'])⟩ k ↔
      k = some (.text (Escape.decode body)) := by
  constructor
  · intro h
    generalize ht : '"' :: (body ++ ['"']) = text at h
    cases h with
    | text hmeans =>
        rw [List.append_cancel_right (List.cons.inj ht).2, Escape.means_iff.mp hmeans]
  · rintro rfl
    obtain ⟨ds, hds⟩ := Escape.exists_means body
    rw [Escape.means_iff.mp hds]
    exact .text hds

theorem offends_digits_iff {cs : List Char} {e : LexError} :
    Piece.Offends m span ⟨some .digits, cs⟩ e ↔
      literal? m cs = none ∧ e = .tooLarge (String.ofList cs) span := by
  have hbound : Numeral.bound = 9223372036854775808 := rfl
  have hnone : literal? m cs = none ↔
      9223372036854775807 < Numeral.value cs ∧
        ¬ (m = true ∧ Numeral.value cs = 9223372036854775808) := by
    rw [Option.eq_none_iff_forall_ne_some]
    simp only [ne_eq, Symbol.literal?_eq_some_iff, not_and, not_or, forall_eq]
    rw [hbound]
    refine and_congr_left fun _ => ?_
    omega
  constructor
  · rintro ⟨⟩
    exact ⟨hnone.mpr ⟨‹_›, ‹_›⟩, rfl⟩
  · rintro ⟨h, rfl⟩
    exact .tooLarge (hnone.mp h).1 (hnone.mp h).2

/-- **A piece gives what the lexer makes of it.** -/
theorem gives_iff (h : cut c rest = (shape, n)) {k : Option TokenKind} :
    Piece.Gives m (piece shape (c :: rest.take n)) k ↔
      kind shape (c :: rest.take n) span m = .ok k := by
  cases shape with
  | digits =>
      rw [piece, pattern?, gives_digits_iff, kind]
      cases literal? m (c :: rest.take n) <;> simp [eq_comm]
  | closedText =>
      obtain ⟨body, hbody⟩ := (matches_cut h rfl).eq_quoted
      rw [hbody, piece, pattern?, gives_text_iff, kind]
      simp [eq_comm]
  | word =>
      rw [piece, pattern?, kind, wordKind]
      cases Keyword.ofWord? (String.ofList (c :: rest.take n)) with
      | none => exact ⟨fun h => by cases h; rfl, fun h => by cases h; exact .name⟩
      | some k => exact ⟨fun h => by cases h; rfl, fun h => by cases h; exact .keyword⟩
  | gap => exact ⟨fun h => by cases h; rfl, fun h => by cases h; exact .gap⟩
  | comment => exact ⟨fun h => by cases h; rfl, fun h => by cases h; exact .comment⟩
  | mark => exact ⟨fun h => by cases h; rfl, fun h => by cases h; exact .mark⟩
  | openText | stray => exact iff_of_false (fun h => by cases h) (fun h => by cases h)

/-- **A piece is an offence for the reason that the lexer finds.** -/
theorem offends_iff (h : cut c rest = (shape, n)) {e : LexError} :
    Piece.Offends m span (piece shape (c :: rest.take n)) e ↔
      kind shape (c :: rest.take n) span m = .error e := by
  cases shape with
  | digits =>
      rw [piece, pattern?, offends_digits_iff, kind]
      cases literal? m (c :: rest.take n) <;> simp [eq_comm]
  | openText => exact ⟨fun h => by cases h; rfl, fun h => by cases h; exact .openText⟩
  | stray =>
      obtain ⟨-, rfl⟩ := Prod.mk.inj (h.symm.trans (cut_stray h rest))
      exact ⟨fun h => by cases h; rfl, fun h => by cases h; exact .stray⟩
  | word =>
      rw [piece, pattern?, kind]
      cases Keyword.ofWord? (String.ofList (c :: rest.take n)) <;>
        exact iff_of_false (fun h => by cases h) (fun h => by cases h)
  | gap | comment | mark | closedText =>
      exact iff_of_false (fun h => by cases h) (fun h => by cases h)

end Piece

/-! ### Where a piece stands -/

theorem Piece.total_concat (ps : List Piece) (p : Piece) :
    total (ps ++ [p]) = total ps + p.size := by
  simp [total, size]

theorem Lexeme.bytes_eq (cs : List Char) : bytes cs = (String.ofList cs).utf8ByteSize := by
  have hfold : ∀ (n : Nat), cs.foldl (fun n c => n + c.utf8Size) n =
      n + (String.ofList cs).utf8ByteSize := by
    induction cs with
    | nil => exact fun _ => rfl
    | cons c cs ih =>
        intro n
        rw [List.foldl_cons, ih, String.ofList_cons, String.utf8ByteSize_append,
          String.utf8ByteSize_singleton, Nat.add_assoc]
  rw [bytes, hfold, Nat.zero_add]

/-- The pieces make up the text. -/
theorem Splits.flatMap_text {cs : List Char} {ps : List Piece} (h : Splits cs ps) :
    ps.flatMap Piece.text = cs := by
  induction h with
  | nil => rfl
  | cons _ _ ih => rw [List.flatMap_cons, ih]

theorem behindMinus_concat (ps : List Piece) (p : Piece) :
    behindMinus (ps ++ [p]) =
      if p.isTrivial then behindMinus ps else p.pattern == some (.mark .minus) := by
  rw [behindMinus, List.filter_append]
  cases h : p.isTrivial <;> simp [h, behindMinus]

/-- The lexer has come past the pieces `before`. -/
structure Behind (before : List Piece) (offset : Nat) (done : List Token) : Prop where
  offset_eq : offset = Piece.total before
  minus : Token.endsInMinus done = behindMinus before

section Behind

variable {before : List Piece} {offset : Nat} {done : List Token} {c : Char} {rest : List Char}
  {shape : Shape} {n : Nat}

theorem Behind.span_eq (h : Behind before offset done) (p : Piece) :
    Span.ofRange offset (offset + bytes p.text) = p.span before := by
  rw [Piece.span, ← h.offset_eq, bytes_eq, Piece.size]

theorem Behind.gives_iff {span : Span} {k : Option TokenKind} (h : Behind before offset done)
    (hcut : cut c rest = (shape, n)) :
    Piece.Gives (behindMinus before) (piece shape (c :: rest.take n)) k ↔
      kind shape (c :: rest.take n) span (Token.endsInMinus done) = .ok k := by
  rw [← h.minus, Treewalk.gives_iff hcut]

theorem Behind.offenceAt_iff {e : LexError} (h : Behind before offset done)
    (hcut : cut c rest = (shape, n)) :
    OffenceAt before (piece shape (c :: rest.take n)) e ↔
      kind shape (c :: rest.take n) (.ofRange offset (offset + bytes (c :: rest.take n)))
        (Token.endsInMinus done) = .error e := by
  rw [OffenceAt, ← h.minus, ← h.span_eq]
  exact offends_iff hcut

theorem Behind.not_offenceAt {k : Option TokenKind} (h : Behind before offset done)
    (hcut : cut c rest = (shape, n))
    (hkind : kind shape (c :: rest.take n) (.ofRange offset (offset + bytes (c :: rest.take n)))
      (Token.endsInMinus done) = .ok k) (e : LexError) :
    ¬ OffenceAt before (piece shape (c :: rest.take n)) e := by
  rw [h.offenceAt_iff hcut, hkind]
  exact fun he => by cases he

theorem Behind.skip {p : Piece} (h : Behind before offset done)
    (hp : p.Gives (behindMinus before) none) :
    Behind (before ++ [p]) (offset + bytes p.text) done := by
  constructor
  · rw [Piece.total_concat, h.offset_eq, bytes_eq, Piece.size]
  · rw [behindMinus_concat, h.minus]
    cases hp <;> rfl

theorem Behind.token {p : Piece} {k : TokenKind} (h : Behind before offset done)
    (hp : p.Gives (behindMinus before) (some k)) (span : Span) :
    Behind (before ++ [p]) (offset + bytes p.text) (⟨k, span⟩ :: done) := by
  constructor
  · rw [Piece.total_concat, h.offset_eq, bytes_eq, Piece.size]
  · rw [behindMinus_concat, Token.endsInMinus_cons]
    cases hp with
    | @mark m => cases m <;> rfl
    | _ => rfl

end Behind

/-! ### The run -/

theorem flawless_cons {before ps : List Piece} {p : Piece} :
    Flawless before (p :: ps) ↔
      (∀ e, ¬ OffenceAt before p e) ∧ Flawless (before ++ [p]) ps := by
  constructor
  · intro h
    refine ⟨fun e he => h [] p ps e rfl (by simpa using he), fun qs q rs e heq he => ?_⟩
    exact h (p :: qs) q rs e (by rw [heq]; rfl) (by simpa using he)
  · rintro ⟨hp, hps⟩ qs q rs e heq he
    cases qs with
    | nil =>
        cases heq
        exact hp e (by simpa using he)
    | cons q' qs =>
        cases heq
        exact hps qs q rs e rfl (by simpa using he)

theorem firstOffence_cons {before ps : List Piece} {p : Piece} {e : LexError} :
    FirstOffence before (p :: ps) e ↔
      OffenceAt before p e ∨
        (∀ e', ¬ OffenceAt before p e') ∧ FirstOffence (before ++ [p]) ps e := by
  constructor
  · rintro ⟨qs, q, rs, heq, hf, he⟩
    cases qs with
    | nil =>
        cases heq
        exact .inl (by simpa using he)
    | cons q' qs =>
        cases heq
        obtain ⟨hp, hqs⟩ := flawless_cons.mp hf
        exact .inr ⟨hp, qs, q, rs, rfl, hqs, by simpa using he⟩
  · rintro (he | ⟨hp, qs, q, rs, rfl, hf, he⟩)
    · exact ⟨[], p, ps, rfl, fun qs _ _ _ heq => by simp at heq, by simpa using he⟩
    · exact ⟨p :: qs, q, rs, rfl, flawless_cons.mpr ⟨hp, hf⟩, by simpa using he⟩

/-- Without a first offence there is none. -/
theorem flawless_iff {before ps : List Piece} :
    Flawless before ps ↔ ∀ e, ¬ FirstOffence before ps e := by
  induction ps generalizing before with
  | nil =>
      refine iff_of_true (fun qs p rs e h => by simp at h) ?_
      rintro e ⟨qs, p, rs, h, -⟩
      simp at h
  | cons p ps ih =>
      rw [flawless_cons, ih]
      constructor
      · rintro ⟨hp, hps⟩ e he
        rcases firstOffence_cons.mp he with he | ⟨-, he⟩
        · exact hp e he
        · exact hps e he
      · intro h
        have hp : ∀ e, ¬ OffenceAt before p e := fun e he => h e (firstOffence_cons.mpr (.inl he))
        exact ⟨hp, fun e he => h e (firstOffence_cons.mpr (.inr ⟨hp, he⟩))⟩

theorem yields_skip_iff {before ps : List Piece} {p : Piece} {ts : List Token}
    (hp : ∀ k, p.Gives (behindMinus before) k ↔ k = none) :
    Yields before (p :: ps) ts ↔ Yields (before ++ [p]) ps ts := by
  refine ⟨fun h => ?_, .skip ((hp none).mpr rfl)⟩
  cases h with
  | skip _ h => exact h
  | token hk _ => cases (hp _).mp hk

theorem yields_token_iff {before ps : List Piece} {p : Piece} {k : TokenKind} {ts : List Token}
    (hp : ∀ k', p.Gives (behindMinus before) k' ↔ k' = some k) :
    Yields before (p :: ps) ts ↔
      ∃ us, Yields (before ++ [p]) ps us ∧ ts = ⟨k, p.span before⟩ :: us := by
  constructor
  · intro h
    cases h with
    | skip hk _ => cases (hp _).mp hk
    | token hk h =>
        cases (hp _).mp hk
        exact ⟨_, h, rfl⟩
  · rintro ⟨us, h, rfl⟩
    exact .token ((hp _).mpr rfl) h

/-- **The lexer comes to the tokens of the pieces.** -/
theorem lexFrom_eq_ok_iff (offset : Nat) (done : List Token) (cs : List Char) {ts : List Token} :
    ∀ before, Behind before offset done →
      (lexFrom offset done cs = .ok ts ↔
        ∃ us, Yields before (pieces cs) us ∧
          ts = done.reverse ++ us ++
            [⟨.finish, .ofRange (Piece.total (before ++ pieces cs))
              (Piece.total (before ++ pieces cs))⟩]) := by
  fun_induction lexFrom offset done cs with
  | case1 offset done =>
      intro before h
      rw [pieces, List.append_nil, ← h.offset_eq]
      constructor
      · intro hts
        cases hts
        exact ⟨[], .nil, by simp⟩
      · rintro ⟨us, ⟨⟩, rfl⟩
        simp
  | case2 offset done c rest shape n hcut text stop span e hkind =>
      intro before h
      refine iff_of_false (fun hts => by cases hts) ?_
      rintro ⟨us, hus, -⟩
      rw [pieces_cons hcut] at hus
      have hno : ∀ k, ¬ Piece.Gives (behindMinus before) (piece shape text) k := by
        intro k
        rw [h.gives_iff hcut, hkind]
        exact fun hk => by cases hk
      cases hus with
      | skip hk _ => exact hno _ hk
      | token hk _ => exact hno _ hk
  | case3 offset done c rest shape n hcut text stop span hkind ih =>
      intro before h
      have hp : ∀ k, Piece.Gives (behindMinus before) (piece shape text) k ↔ k = none := by
        intro k
        rw [h.gives_iff hcut, hkind, Except.ok.injEq, eq_comm]
      rw [ih _ (h.skip ((hp none).mpr rfl)), pieces_cons hcut]
      simp only [yields_skip_iff hp, List.append_assoc, List.singleton_append, text]
  | case4 offset done c rest shape n hcut text stop span k hkind ih =>
      intro before h
      have hp : ∀ k', Piece.Gives (behindMinus before) (piece shape text) k' ↔ k' = some k := by
        intro k'
        rw [h.gives_iff hcut, hkind, Except.ok.injEq, eq_comm]
      have hspan : span = (piece shape text).span before := h.span_eq (piece shape text)
      rw [ih _ (h.token ((hp _).mpr rfl) _), pieces_cons hcut]
      simp only [yields_token_iff hp, ← hspan, List.append_assoc, List.singleton_append,
        List.reverse_cons, text]
      constructor
      · rintro ⟨us, hus, hts⟩
        exact ⟨_, ⟨us, hus, rfl⟩, hts⟩
      · rintro ⟨_, ⟨us, hus, rfl⟩, hts⟩
        exact ⟨us, hus, hts⟩

/-- **The lexer comes to the first offence among the pieces.** -/
theorem lexFrom_eq_error_iff (offset : Nat) (done : List Token) (cs : List Char) {e : LexError} :
    ∀ before, Behind before offset done →
      (lexFrom offset done cs = .error e ↔ FirstOffence before (pieces cs) e) := by
  fun_induction lexFrom offset done cs with
  | case1 offset done =>
      intro before h
      rw [pieces]
      refine iff_of_false (fun hts => by cases hts) ?_
      rintro ⟨qs, p, rs, heq, -⟩
      simp at heq
  | case2 offset done c rest shape n hcut text stop span e' hkind =>
      intro before h
      have hoff := (h.offenceAt_iff hcut).mpr hkind
      rw [pieces_cons hcut, firstOffence_cons]
      constructor
      · rintro ⟨⟩
        exact .inl hoff
      · rintro (he | ⟨hno, -⟩)
        · rw [h.offenceAt_iff hcut, hkind] at he
          cases he
          rfl
        · exact absurd hoff (hno e')
  | case3 offset done c rest shape n hcut text stop span hkind ih =>
      intro before h
      have hp := (h.gives_iff hcut).mpr hkind
      rw [ih _ (h.skip hp), pieces_cons hcut, firstOffence_cons]
      simp [h.not_offenceAt hcut hkind]
  | case4 offset done c rest shape n hcut text stop span k hkind ih =>
      intro before h
      have hp := (h.gives_iff hcut).mpr hkind
      rw [ih _ (h.token hp _), pieces_cons hcut, firstOffence_cons]
      simp [h.not_offenceAt hcut hkind]

/-- **The lexer is maximal munch.**  A text is divided in one way.  It has tokens exactly if none of
its pieces is an offence: those of the pieces, one after another, and the end.  If there are
offences, the first of them is the error. -/
theorem lex_maximal_munch (source : String) :
    ∃ ps, Splits source.toList ps ∧ (∀ qs, Splits source.toList qs → qs = ps) ∧
      ((∃ ts, lex source = .ok ts) ↔ Flawless [] ps) ∧
      (∀ ts, lex source = .ok ts ↔
        ∃ us, Yields [] ps us ∧
          ts = us ++ [⟨.finish, .ofRange source.utf8ByteSize source.utf8ByteSize⟩]) ∧
      ∀ e, lex source = .error e ↔ FirstOffence [] ps e := by
  have hbegin : Behind [] 0 [] := ⟨rfl, rfl⟩
  have htotal : Piece.total (pieces source.toList) = source.utf8ByteSize := by
    rw [Piece.total, (splits_pieces _).flatMap_text, String.ofList_toList]
  have herror : ∀ e, lex source = .error e ↔ FirstOffence [] (pieces source.toList) e :=
    fun e => lexFrom_eq_error_iff 0 [] _ [] hbegin
  refine ⟨pieces source.toList, splits_pieces _, fun qs => splits_iff.mp, ?_, fun ts => ?_, herror⟩
  · simp only [flawless_iff, ← herror]
    cases lex source <;> simp
  · rw [lex, lexFrom_eq_ok_iff 0 [] _ [] hbegin, List.nil_append, htotal]
    rfl

end Treewalk
