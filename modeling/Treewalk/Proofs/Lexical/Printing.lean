import Treewalk.Proofs.Lexical.Tiling
import Treewalk.Proofs.Text.Quotation

/-!
# Lexical — Printed tokens

Which tokens are read back as they are printed.  A quoted text is always closed where it ends, but
not every escape of the printer is one of the lexer: a code point is read character by character.
And a number below zero is read as a minus sign and a number, which happens to one number only, as
no other one below zero is ever read.

* `Text.inner_quoted`, `Text.means_quoted`: what stands between the quotation marks of a quoted
  text, and what it means to the lexer.
* `reads_printed`: printed kinds can be read, and as what.
* `lex_printed_iff`: the tokens of a source are read back exactly if the least number is not among
  them and no text of theirs has a character that is printed as a code point.
-/

namespace Treewalk

open Treewalk.Symbol Lexeme Text Grammar

/-! ### Quoted texts -/

namespace Text

/-- What the lexer makes of a quoted character. -/
def reread (c : Char) : List Char := if quoteChar c = codePoint c then codePoint c else [c]

theorem reread_ne_nil (c : Char) : reread c ≠ [] := by
  unfold reread
  split <;> exact List.cons_ne_nil _ _

theorem reread_eq_self_iff {c : Char} : reread c = [c] ↔ quoteChar c ≠ codePoint c := by
  unfold reread
  split
  · next h =>
      refine iff_of_false (fun heq => ?_) (fun hne => hne h)
      cases (List.cons.inj heq).2
  · next h => exact iff_of_true rfl h

/-- What stands behind the first two characters of a code point has no meaning of its own. -/
theorem exists_codePoint (c : Char) :
    ∃ w, codePoint c = '\\' :: 'u' :: w ∧ ∀ d ∈ w, d ≠ '"' ∧ d ≠ '\\' ∧ d ≠ '\n' := by
  have hdigit : ∀ k < 16, Numeral.digit k ≠ '"' ∧ Numeral.digit k ≠ '\\' ∧
      Numeral.digit k ≠ '\n' := by
    decide
  refine ⟨'\x7b' :: (Numeral.digits 16 c.toNat ++ ['\x7d']), rfl, fun d hd => ?_⟩
  rw [List.mem_cons, List.mem_append, List.mem_singleton] at hd
  rcases hd with rfl | hd | rfl
  · decide
  · obtain ⟨k, hk, rfl⟩ := Numeral.exists_digit_of_mem (by decide) hd
    exact hdigit k hk
  · decide

theorem inner_plain {w cs : List Char} (hw : ∀ c ∈ w, c ≠ '"' ∧ c ≠ '\\' ∧ c ≠ '\n')
    (h : Inner cs) : Inner (w ++ cs) := by
  induction w with
  | nil => exact h
  | cons c w ih =>
      obtain ⟨hquote, hslash, hline⟩ := hw c List.mem_cons_self
      exact .plain hquote hslash hline (ih fun d hd => hw d (List.mem_cons_of_mem _ hd))

theorem means_plain {w cs ds : List Char} (hw : ∀ c ∈ w, c ≠ '\\') (h : Escape.Means cs ds) :
    Escape.Means (w ++ cs) (w ++ ds) := by
  induction w with
  | nil => exact h
  | cons c w ih =>
      exact .plain (hw c List.mem_cons_self) (ih fun d hd => hw d (List.mem_cons_of_mem _ hd))

/-- A written character may stand between quotation marks. -/
theorem Written.inner {c : Char} {s cs : List Char} (h : Written c s) (hcs : Inner cs) :
    Inner (s ++ cs) := by
  cases h with
  | plain hquote hslash hline => exact .plain hquote hslash hline hcs
  | short he =>
      have hline : ∀ p ∈ shortEscapes, p.2 ≠ '\n' := by decide
      exact .escaped (hline _ he) hcs
  | codePoint =>
      obtain ⟨w, hw, hplain⟩ := exists_codePoint c
      rw [hw]
      exact .escaped (by decide) (inner_plain hplain hcs)

/-- A written character means itself, unless it is written as a code point. -/
theorem Written.means {c : Char} {s cs ds : List Char} (h : Written c s)
    (hcs : Escape.Means cs ds) :
    Escape.Means (s ++ cs) ((if s = Text.codePoint c then s else [c]) ++ ds) := by
  cases h with
  | plain _ hslash _ =>
      have hne : [c] ≠ Text.codePoint c := fun heq => hslash (List.cons.inj heq).1
      rw [if_neg hne]
      exact .plain hslash hcs
  | @short e he =>
      have hne : ['\\', e] ≠ Text.codePoint c := fun heq =>
        short_ne_u _ he (List.cons.inj (List.cons.inj heq).2).1
      have hknown : ∀ p ∈ shortEscapes, Escape.resolve? p.2 = some p.1 := by decide
      rw [if_neg hne]
      exact .escape (Escape.resolve?_eq_some_iff.mp (hknown _ he)) hcs
  | codePoint =>
      obtain ⟨w, hw, hplain⟩ := exists_codePoint c
      rw [if_pos rfl, hw]
      exact .unknown (by decide) (means_plain (fun d hd => (hplain d hd).2.1) hcs)

theorem inner_quoted (cs : List Char) : Inner (cs.flatMap quoteChar) := by
  induction cs with
  | nil => exact .nil
  | cons c cs ih => exact (written_quoteChar c).inner ih

theorem means_quoted (cs : List Char) :
    Escape.Means (cs.flatMap quoteChar) (cs.flatMap reread) := by
  induction cs with
  | nil => exact .nil
  | cons c cs ih =>
      have h := (written_quoteChar c).means ih
      rw [List.flatMap_cons, List.flatMap_cons, reread]
      split at h
      · next heq => rwa [if_pos heq, ← heq]
      · next heq => rwa [if_neg heq]

end Text

/-- A text is cut off at its closing quotation mark. -/
theorem Symbol.ofText_closed {body ds : List Char} (hbody : Inner body)
    (hds : Escape.Means body ds) (rest : List Char) :
    ofText ('"' :: (body ++ '"' :: rest)) = .kind (.text (String.ofList ds)) :: ofText rest := by
  have hcut : cut '"' (body ++ '"' :: rest) = (.closedText, body.length + 1) := by
    have h : cut '"' (body ++ '"' :: rest) = textReach 0 (body ++ '"' :: rest) := rfl
    rw [h, textReach_inner hbody, textReach_quote, Nat.zero_add]
  rw [ofText_cons hcut, List.take_length_add_append, List.drop_length_add_append]
  simp [ofLexeme?, Escape.means_iff.mp hds]

/-! ### Printed kinds -/

/-- The kinds that are read where a kind is printed. -/
def TokenKind.printed : TokenKind → List TokenKind
  | text s => [.text (String.ofList (s.toList.flatMap reread))]
  | k => k.written

/-- **A printed kind can be read**, if what follows ends it. -/
theorem reads_spelling {k : TokenKind} (hk : k.Plain) {rest : List Char} (hr : Ends rest)
    {ls : List TokenKind} (h : Reads (k == .mark .minus) (ofText rest) ls) (m : Bool) :
    Reads m (ofText (k.spelling.toList ++ rest)) (k.printed ++ ls) := by
  have hsource := reads_source hk (.inr hr) h m
  cases k with
  | text s =>
      have heq : (TokenKind.text s).spelling.toList ++ rest =
          '"' :: (s.toList.flatMap quoteChar ++ '"' :: rest) := by
        simp [TokenKind.spelling, quote]
      rw [heq, ofText_closed (inner_quoted _) (means_quoted _)]
      exact .cons rfl h
  | number n =>
      rwa [TokenKind.spelling, Numeral.ofWord, String.toList_ofList]
  | name | keyword | mark => exact hsource
  | finish => exact hk.elim

/-- Printed kinds can be read, with a blank between every two of them. -/
theorem reads_joined {ks : List TokenKind} (hks : ∀ k ∈ ks, k.Plain) (m : Bool) :
    Reads m (ofText (List.intercalate [' '] (ks.map (·.spelling.toList))))
      (ks.flatMap TokenKind.printed) := by
  induction ks generalizing m with
  | nil =>
      rw [List.map_nil, List.intercalate_nil, ofText]
      exact .nil
  | cons k ks ih =>
      have ih := ih (fun l hl => hks l (List.mem_cons_of_mem _ hl)) (k == .mark .minus)
      have hk := hks k List.mem_cons_self
      cases ks with
      | nil =>
          rw [List.map_cons, List.map_nil, List.intercalate_singleton,
            ← List.append_nil k.spelling.toList]
          exact reads_spelling hk Ends.nil ih m
      | cons l ls =>
          rw [List.map_cons, List.map_cons, List.intercalate_cons_cons, List.append_assoc]
          rw [← ofText_gap (by decide : isGap ' ' = true)] at ih
          exact reads_spelling hk .blank ih m

theorem reads_printed {ks : List TokenKind} (hks : ∀ k ∈ ks, k.Plain) :
    Reads false (ofText (" ".intercalate (ks.map (·.spelling))).toList)
      (ks.flatMap TokenKind.printed) := by
  rw [String.toList_intercalate, List.map_map]
  exact reads_joined hks false

/-- A list whose items are all replaced, each by one or more, stays the same only if they do. -/
theorem flatMap_eq_self_iff {α : Type} {f : α → List α} (hf : ∀ a, f a ≠ []) {xs : List α} :
    xs.flatMap f = xs ↔ ∀ a ∈ xs, f a = [a] := by
  have hlen : ∀ xs : List α, xs.length ≤ (xs.flatMap f).length := fun xs => by
    induction xs with
    | nil => exact Nat.le_refl _
    | cons a xs ih =>
        have hpos := List.length_pos_iff.mpr (hf a)
        rw [List.flatMap_cons, List.length_append, List.length_cons]
        omega
  induction xs with
  | nil => simp
  | cons a xs ih =>
      rw [List.flatMap_cons, List.forall_mem_cons]
      refine ⟨fun h => ?_, fun ⟨ha, hxs⟩ => by rw [ha, ih.mpr hxs]; rfl⟩
      have hone : (f a).length = [a].length := by
        have hsum := congrArg List.length h
        have hpos := List.length_pos_iff.mpr (hf a)
        have hrest := hlen xs
        rw [List.length_append, List.length_cons] at hsum
        simp only [List.length_cons, List.length_nil]
        omega
      obtain ⟨ha, hxs⟩ := List.append_inj h hone
      exact ⟨ha, ih.mp hxs⟩

/-! ### Tokens of a source -/

/-- Numbers are not known at once. -/
theorem Symbol.number_not_mem_ofText (cs : List Char) (n : Int64) :
    .kind (.number n) ∉ ofText cs := by
  fun_induction ofText cs with
  | case1 => exact List.not_mem_nil
  | case2 c rest shape k hcut ih =>
      rw [List.mem_append, not_or]
      refine ⟨fun h => ?_, ih⟩
      rw [Option.mem_toList] at h
      cases shape with
      | word =>
          have hkind := kind.inj (Option.some.inj h)
          unfold wordKind at hkind
          split at hkind <;> cases hkind
      | _ => cases h

/-- A literal is not below zero, or it is the least number. -/
theorem Lexeme.literal?_nonneg {m : Bool} {ds : List Char} {n : Int64}
    (h : literal? m ds = some n) : 0 ≤ n.toInt ∨ n = Int64.minValue := by
  obtain ⟨rfl, hlt | ⟨-, heq⟩⟩ := literal?_eq_some_iff.mp h
  · rw [Int64.toInt_ofNat_of_lt hlt]
    exact .inl (Int.natCast_nonneg _)
  · rw [heq]
    exact .inr (by decide)

/-- A number that is read from a text is not below zero, or it is the least number. -/
theorem number_of_reads {m : Bool} {cs : List Char} {ks : List TokenKind}
    (h : Reads m (ofText cs) ks) {n : Int64} (hn : .number n ∈ ks) :
    0 ≤ n.toInt ∨ n = Int64.minValue := by
  obtain ⟨y, hy, b, hk⟩ := h.exists_symbol hn
  cases y with
  | digits ds =>
      obtain ⟨l, hl, hln⟩ := Option.map_eq_some_iff.mp hk
      exact literal?_nonneg (TokenKind.number.inj hln ▸ hl)
  | kind k =>
      cases hk
      exact absurd hy (number_not_mem_ofText cs n)
  | offence => cases hk

/-- The kinds that are read from a text can stand in a program. -/
theorem plain_of_reads {m : Bool} {cs : List Char} {ks : List TokenKind}
    (h : Reads m (ofText cs) ks) (hf : .finish ∉ ks) : ∀ k ∈ ks, k.Plain := by
  intro k hk
  cases k with
  | name x => exact isName_of_reads h (fun _ => isName_of_mem_ofText) x hk
  | finish => exact hf hk
  | number | text | keyword | mark => trivial

theorem exists_lex_kinds {source : String} {ks : List TokenKind}
    (h : Reads false (ofText source.toList) ks) :
    ∃ ts, lex source = .ok ts ∧ ts.map (·.kind) = ks ++ [.finish] := by
  obtain ⟨ts, hts⟩ := exists_lexFrom 0 [] _ _ h
  obtain ⟨ls, hls, -, hkinds⟩ := lexFrom_reads hts
  exact ⟨ts, hts, hls.unique h ▸ hkinds⟩

theorem TokenKind.printed_ne_nil (k : TokenKind) : k.printed ≠ [] := by
  cases k with
  | number n =>
      rw [printed, written]
      · split <;> exact List.cons_ne_nil _ _
      · intro s h
        cases h
  | text | name | keyword | mark | finish => exact List.cons_ne_nil _ _

/-- The kind is neither the least number nor a text with a character that is printed as a code
point. -/
def TokenKind.Legible (k : TokenKind) : Prop :=
  k ≠ .number Int64.minValue ∧ ∀ s, k = .text s → ∀ c ∈ s.toList, quoteChar c ≠ codePoint c

/-- Of the kinds that are read at all, those are read back. -/
theorem TokenKind.printed_eq_self_iff {k : TokenKind}
    (hk : ∀ n, k = .number n → 0 ≤ n.toInt ∨ n = Int64.minValue) :
    k.printed = [k] ↔ k.Legible := by
  unfold Legible
  cases k with
  | number n =>
      rcases hk n rfl with hpos | rfl
      · have hne : TokenKind.number n ≠ .number Int64.minValue := by
          rintro heq
          rw [number.inj heq] at hpos
          exact absurd hpos (by decide)
        simp [printed, written, Int.not_lt.mpr hpos, hne]
      · exact iff_of_false (by decide) fun h => h.1 rfl
  | text s =>
      have hself : (printed (text s) = [text s]) ↔ s.toList.flatMap reread = s.toList := by
        rw [printed, List.cons.injEq, text.injEq, ← String.toList_inj, String.toList_ofList]
        simp
      rw [hself, flatMap_eq_self_iff reread_ne_nil]
      simp [reread_eq_self_iff]
  | name | keyword | mark | finish => simp [printed, written]

/-- The kinds of the tokens without the end. -/
theorem map_kind_filter {ts : List Token} {ks : List TokenKind}
    (h : ts.map (·.kind) = ks ++ [.finish]) (hf : .finish ∉ ks) :
    (ts.filter (·.kind ≠ .finish)).map (·.kind) = ks := by
  have hall : ∀ k ∈ ks, decide (k ≠ TokenKind.finish) = true :=
    fun k hk => decide_eq_true fun heq => hf (heq ▸ hk)
  have hfilter : (ts.map (·.kind)).filter (· ≠ .finish) = ks := by
    rw [h, List.filter_append, List.filter_eq_self.mpr hall]
    exact List.append_nil ks
  rw [← hfilter, List.filter_map]
  rfl

/-- **Printed tokens are read back** exactly if the least number is not among them and no text of
theirs has a character that is printed as a code point. -/
theorem lex_printed_iff {source : String} {ts : List Token} (h : lex source = .ok ts) :
    (∃ us, lex (" ".intercalate ((ts.filter (·.kind ≠ .finish)).map (·.kind.spelling))) = .ok us ∧
        us.map (·.kind) = ts.map (·.kind)) ↔
      (∀ t ∈ ts, t.kind ≠ .number Int64.minValue) ∧
        ∀ t ∈ ts, ∀ s, t.kind = .text s → ∀ c ∈ s.toList, quoteChar c ≠ codePoint c := by
  obtain ⟨ks, hks, hf, hkinds⟩ := lexFrom_reads h
  rw [List.reverse_nil, List.map_nil, List.nil_append] at hkinds
  have hspellings : (ts.filter (·.kind ≠ .finish)).map (·.kind.spelling) =
      ks.map (·.spelling) := by
    rw [← map_kind_filter hkinds hf, List.map_map]
    rfl
  obtain ⟨us, hus, hback⟩ := exists_lex_kinds (reads_printed (plain_of_reads hks hf))
  rw [hspellings, hus]
  -- The end is neither a number nor a text, so it makes no difference.
  have hends : ∀ {P : TokenKind → Prop}, P .finish → ((∀ t ∈ ts, P t.kind) ↔ ∀ k ∈ ks, P k) :=
    fun {P} hP => by
      have hmap : (∀ t ∈ ts, P t.kind) ↔ ∀ k ∈ ts.map (·.kind), P k := List.forall_mem_map.symm
      rw [hmap, hkinds, List.forall_mem_append, List.forall_mem_singleton, and_iff_left hP]
  calc
    _ ↔ us.map (·.kind) = ts.map (·.kind) := by simp
    _ ↔ ∀ k ∈ ks, k.printed = [k] := by
      rw [hback, hkinds, List.append_cancel_right_eq,
        flatMap_eq_self_iff TokenKind.printed_ne_nil]
    _ ↔ ∀ k ∈ ks, k.Legible :=
      forall₂_congr fun k hk => TokenKind.printed_eq_self_iff fun n hn =>
        number_of_reads hks (hn ▸ hk)
    _ ↔ ∀ t ∈ ts, t.kind.Legible := (hends ⟨by decide, fun _ h => nomatch h⟩).symm
    _ ↔ _ := ⟨fun h => ⟨fun t ht => (h t ht).1, fun t ht => (h t ht).2⟩,
      fun h t ht => ⟨h.1 t ht, h.2 t ht⟩⟩

/-- A tab is read back, the least number is not. -/
theorem tab_printed :
    (∃ us, lex "print \"a\\t\\\"\" ; - 5" = .ok us ∧ us.map (·.kind) =
      [.keyword .print, .text "a\t\"", .mark .semicolon, .mark .minus, .number 5, .finish]) ∧
    ¬ ∃ us, lex "- -9223372036854775808" = .ok us ∧
      us.map (·.kind) = [.mark .minus, .number Int64.minValue, .finish] := by
  have htab : lex "print\"a\t\\\"\";-5" =
      .ok [⟨.keyword .print, ⟨0, 5⟩⟩, ⟨.text "a\t\"", ⟨5, 11⟩⟩, ⟨.mark .semicolon, ⟨11, 12⟩⟩,
        ⟨.mark .minus, ⟨12, 13⟩⟩, ⟨.number 5, ⟨13, 14⟩⟩, ⟨.finish, ⟨14, 14⟩⟩] :=
    lex_of_toOption (by decide +kernel)
  have hleast : lex "-9223372036854775808" =
      .ok [⟨.mark .minus, ⟨0, 1⟩⟩, ⟨.number Int64.minValue, ⟨1, 20⟩⟩, ⟨.finish, ⟨20, 20⟩⟩] :=
    lex_of_toOption (by decide +kernel)
  have hjoined : " ".intercalate ["print", quote "a\t\"", ";", "-", Numeral.ofWord 5] =
      "print \"a\\t\\\"\" ; - 5" := by decide +kernel
  have hjoined' : " ".intercalate ["-", Numeral.ofWord Int64.minValue] =
      "- -9223372036854775808" := by decide +kernel
  rw [← hjoined, ← hjoined']
  refine ⟨(lex_printed_iff htab).mpr ⟨by decide, fun t ht s hs => ?_⟩, fun h => ?_⟩
  · have hall : ∀ c ∈ "a\t\"".toList, quoteChar c ≠ codePoint c := by
      simp [quoteChar, codePoint, isHidden]
    simp only [List.mem_cons, List.not_mem_nil, or_false] at ht
    rcases ht with rfl | rfl | rfl | rfl | rfl | rfl <;> cases hs
    exact hall
  · exact ((lex_printed_iff hleast).mp h).1 _ (.tail _ (.head _)) rfl

end Treewalk
