import Treewalk.Proofs.Grammar.Refusals
import Treewalk.Proofs.Program.Layout
import Treewalk.Proofs.Source.Positions
import Treewalk.Proofs.Text.Lines

/-!
# Program — Diagnostics

What stops a text from being a program is told in one line, and the line says where to look.

* `Diagnostic.Points`: what stands at the place that a diagnostic is about.
* `ParseError.CallsForSymbol.oneLine_message`, `Diagnostic.Points.oneLine_lexical`: no message ends
  its line, whatever the text says.
* `lex_error_points`, `parse_error_points`: the place is that of the first offence, or of the token
  that no program goes on with.
* `diagnostic_points_at_offence`: all of it, for every text whose offsets fit into a span and whose
  lines and columns words can tell.
-/

namespace Treewalk

open Lexeme Treewalk.Parser

/-! ### Messages of one line -/

theorem Position.oneLine_text (p : Position) : OneLine p.text :=
  ((Numeral.oneLine_ofNat _).append (by decide)).append (Numeral.oneLine_ofNat _)

theorem Keyword.oneLine_spelling (k : Keyword) : OneLine k.spelling := by
  cases k <;> decide

theorem Mark.oneLine_spelling (m : Mark) : OneLine m.spelling := by
  cases m <;> decide

theorem ne_line_of_isWordPart {c : Char} (h : IsLetter c ∨ IsDigit c) : c ≠ '\n' := by
  rintro rfl
  exact absurd (isWordPart_iff.mpr h) (by decide)

/-- A token is described in one line: a text is quoted, and a name has letters and digits only. -/
theorem Lexes.oneLine_description {text : List Char} {k : TokenKind} (h : Lexes text k) :
    OneLine k.description := by
  obtain ⟨p, m, hm, hg⟩ := h
  cases hg with
  | keyword => exact (Keyword.oneLine_spelling _).between
  | mark => exact (Mark.oneLine_spelling _).between
  | number | least => exact (Numeral.oneLine_ofWord _).between
  | text => exact .append (by decide) (Text.oneLine_quote _)
  | name =>
      have hname : '\n' ∉ text := by
        cases hm.matches_text with
        | name hc hall =>
            rintro (_ | ⟨_, hmem⟩)
            · exact ne_line_of_isWordPart (.inl hc) rfl
            · exact ne_line_of_isWordPart (hall _ hmem) rfl
      exact (oneLine_ofList.mpr hname).between

theorem head?_append {a : String} {c : Char} (h : a.toList.head? = some c) (b : String) :
    (a ++ b).toList.head? = some c := by
  rw [String.toList_append, List.head?_append, h]
  rfl

/-- Only the end of a text is described as such; other descriptions do not even begin so. -/
theorem Lexes.description_ne_end {text : List Char} {k : TokenKind} (h : Lexes text k) :
    k.description ≠ "end of file" := by
  intro heq
  have hfirst : ∀ c, k.description.toList.head? = some c → c = 'e' := by
    intro c hc
    rw [heq] at hc
    exact (Option.some.inj hc).symm
  cases k with
  | finish => exact h.ne_finish rfl
  | number | name =>
      exact absurd (hfirst 'i' (head?_append (head?_append (by decide) _) _)) (by decide)
  | text => exact absurd (hfirst 's' (head?_append (by decide) _)) (by decide)
  | keyword | mark =>
      exact absurd (hfirst '`' (head?_append (head?_append (by decide) _) _)) (by decide)

/-! ### What a parser calls for -/

/-- If the error tells what was called for, it is a mark or a name. -/
def ParseError.CallsForSymbol (e : ParseError) : Prop :=
  ∀ x, e.expected? = some x → x = .identifier ∨ ∃ m, x = .kind (.mark m)

namespace Parser.State

theorem demand_calls {t : Token} {m : Mark} {c : Construct} {s : State} {e : ParseError}
    (h : demand t m c s = .error e) : e.CallsForSymbol := by
  by_cases hk : t.kind = .mark m
  · rw [demand_ok hk] at h
    cases h
  · rw [demand, Token.demand, if_neg (mt alike_mark_iff.mp hk)] at h
    cases h
    rintro x ⟨⟩
    exact .inr ⟨m, rfl⟩

theorem feedStatement_calls {s : State} {t : Token} {e : ParseError}
    (h : s.feedStatement t = .error e) : e.CallsForSymbol := by
  unfold feedStatement at h
  split at h
  case h_8 =>
      cases h
      rintro x ⟨⟩
      exact .inr ⟨.closeBrace, rfl⟩
  case h_9 =>
      cases h
      rintro x ⟨⟩
  all_goals cases h

theorem feedOperand_calls {s : State} {p : Purpose} {ws : List Waiting} {t : Token}
    {e : ParseError} (h : s.feedOperand p ws t = .error e) : e.CallsForSymbol := by
  unfold feedOperand at h
  split at h
  case h_6 =>
      cases h
      rintro x ⟨⟩
  all_goals cases h

theorem feedOperator_calls {negate : Node → Node} {s : State} {p : Purpose} {ws : List Waiting}
    {n : Node} {t : Token} {e : ParseError} (h : s.feedOperator negate p ws n t = .error e) :
    e.CallsForSymbol := by
  unfold feedOperator at h
  split at h
  · cases h
  · split at h
    · exact demand_calls h
    · cases p <;> exact demand_calls h

/-- **A parser calls for marks and names.** -/
theorem feed_calls {negate : Node → Node} {s : State} {t : Token} {e : ParseError}
    (h : s.feed negate t = .error e) : e.CallsForSymbol := by
  obtain ⟨g, done, outer⟩ := s
  cases g with
  | statement => exact feedStatement_calls h
  | assignMark | inputEnd | openParen | printEnd | openBrace => exact demand_calls h
  | inputName =>
      simp only [feed, Token.demandName] at h
      split at h
      · cases h
      · next e' he =>
          split at he
          · cases he
          · cases he
            cases h
            rintro x ⟨⟩
            exact .inl rfl
  | operand p ws => exact feedOperand_calls h
  | operator p ws n => exact feedOperator_calls h
  | orElse chain c yes =>
      simp only [feed] at h
      split at h
      · cases h
      · exact feedStatement_calls h
  | elseBody chain c yes =>
      simp only [feed] at h
      split at h
      · cases h
      · exact demand_calls h

end Parser.State

namespace ParseError

/-- What was called for, in words. -/
def wanted : ParseError → String
  | unexpected x _ _ _ => x.text
  | noStatement _ _ => "a statement"
  | noExpression _ _ _ => "an expression"

/-- The message tells what was called for, what was found, and where. -/
theorem message_eq (e : ParseError) :
    e.message = "expected " ++ e.wanted ++ ", found " ++ e.found ++ suffix e.construct? := by
  cases e with
  | unexpected => rfl
  | noStatement f s =>
      have hlead : "expected " ++ "a statement" ++ ", found " = "expected a statement, found " := by
        decide
      calc "expected a statement, found " ++ f
          = "expected " ++ "a statement" ++ ", found " ++ f := by rw [hlead]
        _ = "expected " ++ "a statement" ++ ", found " ++ f ++ "" := (String.append_empty ..).symm
  | noExpression f s c =>
      have hlead : "expected " ++ "an expression" ++ ", found " =
          "expected an expression, found " := by decide
      exact congrArg (· ++ f ++ suffix c) hlead.symm

theorem oneLine_suffix (c : Option Construct) : OneLine (suffix c) := by
  cases c with
  | none => decide
  | some c => exact .append (by decide) (by cases c <;> decide)

theorem CallsForSymbol.oneLine_wanted {e : ParseError} (h : e.CallsForSymbol) :
    OneLine e.wanted := by
  cases e with
  | unexpected x f s c =>
      obtain rfl | ⟨m, rfl⟩ := h x rfl
      · exact (by decide : OneLine "an identifier")
      · exact m.oneLine_spelling.between
  | noStatement => exact (by decide : OneLine "a statement")
  | noExpression => exact (by decide : OneLine "an expression")

theorem CallsForSymbol.oneLine_message {e : ParseError} (h : e.CallsForSymbol)
    (hf : OneLine e.found) : OneLine e.message := by
  rw [message_eq]
  exact (h.oneLine_wanted.between.append hf).append (oneLine_suffix _)

end ParseError

/-! ### Places -/

/-- `d.Points cs`: the place that the diagnostic is about is where `cs` begins. -/
inductive Diagnostic.Points : Diagnostic → List Char → Prop where
  /-- The character that starts nothing. -/
  | stray {c : Char} {rest : List Char} {span : Span} : Munches (c :: rest) ⟨none, [c]⟩ →
      Points (.lexical (.stray (String.singleton c) span)) (c :: rest)
  /-- The quotation mark of a text that is not closed. -/
  | openText {body rest : List Char} {span : Span} :
      Munches ('"' :: (body ++ rest)) ⟨some .openText, '"' :: body⟩ →
      Points (.lexical (.openText span)) ('"' :: (body ++ rest))
  /-- The digits, all of them. -/
  | tooLarge {ds rest : List Char} {span : Span} : ds ≠ [] → (∀ c ∈ ds, IsDigit c) →
      (∀ c ∈ rest.head?, ¬ IsDigit c) →
      Points (.lexical (.tooLarge (String.ofList ds) span)) (ds ++ rest)
  /-- The lexeme of the token that the message describes. -/
  | token {text rest : List Char} {k : TokenKind} {e : ParseError} : Lexes text k →
      e.found = k.description → e.found ≠ "end of file" → Points (.grammatical e) (text ++ rest)
  /-- The end of the text, if the message speaks of it. -/
  | finish {e : ParseError} : e.found = "end of file" → Points (.grammatical e) []

/-- Digits go on as long as they can. -/
theorem Munches.digits_stop {ds rest : List Char} (h : Munches (ds ++ rest) ⟨some .digits, ds⟩) :
    ds ≠ [] ∧ (∀ c ∈ ds, IsDigit c) ∧ ∀ c ∈ rest.head?, ¬ IsDigit c := by
  cases h.matches_text with
  | digits hne hall =>
      refine ⟨hne, hall, fun c hc hd => ?_⟩
      obtain ⟨rest, rfl⟩ := List.head?_eq_some_iff.mp hc
      have hlonger : Pattern.digits.Matches (ds ++ [c]) :=
        .digits (by simp) (by simpa [or_imp, forall_and] using ⟨hall, hd⟩)
      have hle := h.length_le ⟨rest, by simp⟩ hlonger
      exact absurd hle (by simp)

theorem Piece.Offends.span_eq {m : Bool} {span : Span} {p : Piece} {e : LexError}
    (h : p.Offends m span e) : e.span = span := by
  cases h <;> rfl

/-- An offence is where its piece begins. -/
theorem Piece.Offends.points {m : Bool} {span : Span} {p : Piece} {e : LexError}
    (h : p.Offends m span e) {rest : List Char} (hm : Munches (p.text ++ rest) p) :
    (Diagnostic.lexical e).Points (p.text ++ rest) := by
  cases h with
  | stray => exact .stray hm
  | tooLarge =>
      obtain ⟨hne, hall, hstop⟩ := hm.digits_stop
      exact .tooLarge hne hall hstop
  | openText =>
      cases hm.matches_text with
      | openText => exact .openText hm

/-- **A text without tokens is told where its first offence begins.** -/
theorem lex_error_points {source : String} (hsize : source.utf8ByteSize < 4294967296) {e : LexError}
    (h : lex source = .error e) :
    ∃ before after : List Char, source.toList = before ++ after ∧ e.span.start.toNat = bytes before ∧
      (Diagnostic.lexical e).Points after := by
  -- The pieces `qs` in front of the first offence make up the text in front of it.
  obtain ⟨qs, p, rs, hps, -, hoff⟩ := (lexFrom_eq_error_iff 0 [] _ [] ⟨rfl, rfl⟩).mp h
  have hs := splits_pieces source.toList
  have htotal := Piece.total_pieces source
  rw [hps] at hs htotal
  have htext : source.toList = qs.flatMap Piece.text ++ (p :: rs).flatMap Piece.text := by
    rw [← List.flatMap_append, hs.flatMap_text]
  rw [List.nil_append] at hoff
  refine ⟨_, _, htext, ?_, ?_⟩
  · rw [hoff.span_eq, (Piece.covers_span (htotal ▸ Nat.le_of_lt_succ hsize)).1, Piece.total,
      bytes_eq]
  · rw [htext] at hs
    generalize (p :: rs).flatMap Piece.text = after at hs
    cases hs.drop with
    | cons hm _ => exact hoff.points hm

/-- **Tokens that are no program are told where the one begins that no program goes on with.** -/
theorem parse_error_points {source : String} (hsize : source.utf8ByteSize < 4294967296)
    {ts : List Token} (hlex : lex source = .ok ts) {e : ParseError}
    (h : parse ts = some (.error e)) :
    ∃ before after : List Char, source.toList = before ++ after ∧ e.span.start.toNat = bytes before ∧
      (Diagnostic.grammatical e).Points after ∧ e.CallsForSymbol := by
  -- The parser refuses one of the tokens, and the tiling tells where its lexeme stands.
  obtain ⟨us, t, vs, s, hts, -, hfeed⟩ := exists_refused (lex_ends hlex) h
  obtain ⟨hspan, hfound, -⟩ := State.refuses hfeed
  obtain ⟨before, gap, text, after, hcs, -, hplace, hkind⟩ := (tiled_of_lex hsize hlex).place hts
  refine ⟨before ++ gap, text ++ after, by rw [hcs, List.append_assoc], ?_, ?_,
    State.feed_calls hfeed⟩
  · rw [hspan, hplace.1, Nat.zero_add]
  · rcases hkind with ⟨hk, rfl, rfl, -⟩ | ⟨hl, -⟩
    · exact .finish (by rw [hfound, hk]; rfl)
    · exact .token hl hfound (hfound ▸ hl.description_ne_end)

/-! ### Diagnostics -/

/-- A text has no tree because it has no tokens, or because they are no program. -/
theorem Script.tree_eq_error_iff {script : Script} {d : Diagnostic} :
    script.tree = .error d ↔
      (∃ e, d = .lexical e ∧ lex script.text = .error e) ∨
        ∃ ts e, d = .grammatical e ∧ lex script.text = .ok ts ∧ parse ts = some (.error e) := by
  cases hl : lex script.text with
  | error e =>
      have htree : script.tree = .error (.lexical e) := by
        unfold Script.tree
        split
        · next e' he => cases hl.symm.trans he; rfl
        · next ts hts => cases hl.symm.trans hts
      rw [htree]
      simp [eq_comm]
  | ok ts =>
      obtain ⟨r, hr, htree⟩ := tree_eq_mapError hl
      rw [htree]
      constructor
      · intro h
        cases r with
        | ok root => cases h
        | error e =>
            cases h
            exact .inr ⟨ts, e, rfl, rfl, hr⟩
      · rintro (⟨e, -, ⟨⟩⟩ | ⟨_, e, rfl, ⟨⟩, he⟩)
        cases hr.symm.trans he
        rfl

theorem Diagnostic.Points.oneLine_lexical {e : LexError} {cs : List Char}
    (h : (Diagnostic.lexical e).Points cs) : OneLine e.message := by
  cases h with
  | @stray c rest span hm =>
      have hc : c ≠ '\n' := by
        rintro rfl
        cases hm with
        | stray hno => exact hno .gap ['\n'] ⟨rest, rfl⟩ (.gap (by simp) (by simp))
      have hchar : OneLine (String.singleton c) := by simpa [OneLine, eq_comm] using hc
      exact hchar.between
  | openText => exact (by decide : OneLine "unterminated string literal")
  | @tooLarge ds rest span _ hall _ =>
      have hds : '\n' ∉ ds := fun hmem => ne_line_of_isWordPart (.inr (hall _ hmem)) rfl
      exact (oneLine_ofList.mpr hds).between

/-- A diagnostic of a text is about one place in it, and its message is one line. -/
theorem Script.exists_place {script : Script} (hsize : script.text.utf8ByteSize < 4294967296)
    {d : Diagnostic} (h : script.tree = .error d) :
    ∃ (span : Span) (before after : List Char), d.span? = some span ∧
      script.text.toList = before ++ after ∧ span.start.toNat = bytes before ∧ d.Points after ∧
      OneLine d.message := by
  obtain ⟨e, rfl, he⟩ | ⟨ts, e, rfl, hts, he⟩ := tree_eq_error_iff.mp h
  · obtain ⟨before, after, htext, hspan, hpoints⟩ := lex_error_points hsize he
    exact ⟨e.span, before, after, rfl, htext, hspan, hpoints, hpoints.oneLine_lexical⟩
  · obtain ⟨before, after, htext, hspan, hpoints, hcalls⟩ := parse_error_points hsize hts he
    refine ⟨e.span, before, after, rfl, htext, hspan, hpoints, hcalls.oneLine_message ?_⟩
    cases hpoints with
    | token hl hf _ => exact hf ▸ hl.oneLine_description
    | finish hf => rw [hf]; decide

/-- **A diagnostic is one line, and points at the offence.**  Let the text of a script have offsets
that fit into a span, and lines and columns that words can tell.  Rendered with its script, the
diagnostic is the script's name, a line, a column, and the message, without an end of line in it.
Line and column are those behind a part of the text that is as many bytes long as the diagnostic's
span starts at.  Behind that part stands what the message is about: the character that starts
nothing, the quotation mark that has no partner, all of the digits, or the lexeme of the token that
was found; and nothing, if the end of the text was found. -/
theorem diagnostic_points_at_offence {script : Script}
    (hsize : script.text.utf8ByteSize < 4294967296) (hfits : Position.Fits script.text.toList)
    (hname : OneLine script.name) {d : Diagnostic} (h : script.tree = .error d) :
    OneLine (d.render (some script)) ∧
    ∃ (span : Span) (before after : String), d.span? = some span ∧
      script.text = before ++ after ∧ span.start.toNat = before.utf8ByteSize ∧
      d.render (some script) =
        script.name ++ ":" ++
          (Numeral.ofNat (Position.lineBehind before.toList) ++ ":" ++
            Numeral.ofNat (Position.columnBehind before.toList)) ++
          ": error: " ++ d.message ∧
      d.Points after.toList ∧
      ∀ e, d = .grammatical e → ∃ wanted during,
        d.message = "expected " ++ wanted ++ ", found " ++ e.found ++ during := by
  obtain ⟨span, before, after, hspan, htext, hstart, hpoints, hline⟩ := script.exists_place hsize h
  have hsplit : script.text = String.ofList before ++ String.ofList after := by
    rw [← String.ofList_append, ← htext, String.ofList_toList]
  have hoffset : span.start.toNat = (String.ofList before).utf8ByteSize := by rw [hstart, bytes_eq]
  have hposition : span.position script.text = Position.behind before := by
    rw [Span.position, hoffset, hsplit, Position.ofOffset_append, String.toList_ofList]
  have hbefore : Position.Fits before := by
    rw [htext] at hfits
    exact hfits.sublist (List.sublist_append_left ..)
  have hrender : d.render (some script) =
      script.name ++ ":" ++ (Position.behind before).text ++ ": error: " ++ d.message := by
    simp only [Diagnostic.render, hspan, hposition]
  refine ⟨?_, span, .ofList before, .ofList after, hspan, hsplit, hoffset, ?_, ?_, ?_⟩
  · rw [hrender]
    exact ((hname.append (by decide)).append (Position.oneLine_text _)).append (by decide)
      |>.append hline
  · obtain ⟨hl, hc⟩ := hbefore.isBehind
    rw [hrender, Position.text, hl, hc, String.toList_ofList]
  · rwa [String.toList_ofList]
  · rintro e rfl
    exact ⟨_, _, e.message_eq⟩

/-- On its second line the script prints two texts with nothing between them; the other of them has
an end of line in it. -/
theorem second_text_is_pointed_at :
    let script : Script := ⟨"twice", "x = 1;\nprint(\"é\" \"a\\nb\");"⟩
    let d : Diagnostic := .grammatical
      (.unexpected (.kind (.mark .closeParen)) "string \"a\\nb\"" ⟨18, 24⟩ (some .print))
    script.text.utf8ByteSize < 4294967296 ∧ Position.Fits script.text.toList ∧
      script.tree = .error d ∧ OneLine (d.render (some script)) ∧
      ∃ before after : String, script.text = before ++ after ∧ before.utf8ByteSize = 18 ∧
        d.Points after.toList := by
  intro script d
  have hlex : lex script.text = .ok
      [⟨.name "x", ⟨0, 1⟩⟩, ⟨.mark .assign, ⟨2, 3⟩⟩, ⟨.number 1, ⟨4, 5⟩⟩,
        ⟨.mark .semicolon, ⟨5, 6⟩⟩, ⟨.keyword .print, ⟨7, 12⟩⟩, ⟨.mark .openParen, ⟨12, 13⟩⟩,
        ⟨.text "é", ⟨13, 17⟩⟩, ⟨.text "a\nb", ⟨18, 24⟩⟩, ⟨.mark .closeParen, ⟨24, 25⟩⟩,
        ⟨.mark .semicolon, ⟨25, 26⟩⟩, ⟨.finish, ⟨26, 26⟩⟩] :=
    lex_of_toOption (by decide +kernel)
  have htree : script.tree = .error d :=
    Script.tree_eq_error_iff.mpr (.inr ⟨_, _, rfl, hlex, rfl⟩)
  have hsize : script.text.utf8ByteSize < 4294967296 := by decide +kernel
  have hfits : Position.Fits script.text.toList := by decide +kernel
  obtain ⟨hline, span, before, after, hspan, htext, hstart, -, hpoints, -⟩ :=
    diagnostic_points_at_offence hsize hfits (by decide) htree
  cases hspan
  exact ⟨hsize, hfits, htree, hline, before, after, htext, hstart.symm, hpoints⟩

/-! ### A line without room for its end -/

theorem lex_word {c : Char} {w : List Char} (hc : isWordStart c = true)
    (hw : ∀ d ∈ w, isWordPart d = true) :
    lex (String.ofList (c :: w)) =
      .ok [⟨wordKind (String.ofList (c :: w)), .ofRange 0 (bytes (c :: w))⟩,
        ⟨.finish, .ofRange (bytes (c :: w)) (bytes (c :: w))⟩] := by
  have hcut : cut c w = (.word, w.length) := by rw [cut_word hc, run_eq_length hw]
  rw [lex, String.toList_ofList, lexFrom]
  simp only [hcut, List.take_length, List.drop_length, kind, Nat.zero_add]
  rw [lexFrom]
  rfl

theorem wordKind_replicate (n : Nat) :
    wordKind (String.ofList (List.replicate n 'a')) =
      .name (String.ofList (List.replicate n 'a')) := by
  -- Only the first letter of a keyword is looked at: none of them is this one.
  have hfirst : ∀ c, (String.ofList (List.replicate n 'a')).toList.head? = some c → c = 'a' := by
    rw [String.toList_ofList]
    exact fun c hc => List.eq_of_mem_replicate (List.mem_of_head? hc)
  generalize String.ofList (List.replicate n 'a') = x at hfirst
  refine wordKind_eq_name_iff.mpr ⟨rfl, fun hmem => ?_⟩
  simp only [List.mem_cons, List.not_mem_nil, or_false] at hmem
  rcases hmem with rfl | rfl | rfl | rfl | rfl <;> exact absurd (hfirst _ rfl) (by decide)

/-- One letter again and again is a name, and nothing is assigned to it. -/
theorem tree_letters (name : String) (n : Nat) :
    Script.tree ⟨name, String.ofList (List.replicate (n + 1) 'a')⟩ =
      .error (.grammatical (.unexpected (.kind (.mark .assign)) "end of file"
        (.ofRange (n + 1) (n + 1)) (some .assignment))) := by
  have hlex : lex (String.ofList (List.replicate (n + 1) 'a')) =
      .ok [⟨.name (String.ofList (List.replicate (n + 1) 'a')), .ofRange 0 (n + 1)⟩,
        ⟨.finish, .ofRange (n + 1) (n + 1)⟩] := by
    have hbytes : bytes (List.replicate (n + 1) 'a') = n + 1 := by
      rw [bytes_eq, utf8ByteSize_replicate (by decide)]
    have hword := lex_word (c := 'a') (w := List.replicate n 'a') (by decide) fun d hd => by
      rw [List.eq_of_mem_replicate hd]
      decide
    rwa [← List.replicate_succ, wordKind_replicate, hbytes] at hword
  exact Script.tree_eq_error_iff.mpr (.inr ⟨_, _, rfl, hlex, rfl⟩)

/-- As many letters on one line as the greatest offset counts: the column behind them is one more
than a word can tell, and is zero.  So the diagnostic at the end of the text points to no place in
it. -/
theorem column_behind_letters_begins_again :
    let script : Script := ⟨"t.mint", String.ofList (List.replicate 4294967295 'a')⟩
    script.text.utf8ByteSize < 4294967296 ∧ OneLine script.name ∧
      ∃ d, script.tree = .error d ∧
        d.message = "expected `=`, found end of file while parsing an assignment" ∧
        d.render (some script) = script.name ++ ":" ++ "1:0" ++ ": error: " ++ d.message ∧
        ∀ before after : String, script.text = before ++ after →
          d.render (some script) ≠
            script.name ++ ":" ++
              (Numeral.ofNat (Position.lineBehind before.toList) ++ ":" ++
                Numeral.ofNat (Position.columnBehind before.toList)) ++
              ": error: " ++ d.message := by
  intro script
  let stop : Span := .ofRange 4294967295 4294967295
  let d : Diagnostic := .grammatical
    (.unexpected (.kind (.mark .assign)) "end of file" stop (some .assignment))
  have hsize : script.text.utf8ByteSize = 4294967295 := utf8ByteSize_replicate (by decide) _
  have htext : script.text.toList = List.replicate 4294967295 'a' := String.toList_ofList
  have hle : script.text.utf8ByteSize ≤ stop.start.toNat := Nat.le_of_eq hsize
  have hnumbers : "1:0" = Numeral.ofNat 1 ++ ":" ++ Numeral.ofNat 0 := by decide +kernel
  have hposition : stop.position script.text = ⟨1, 0⟩ := by
    obtain ⟨hline, hcolumn⟩ := Position.behind_line (c := 'a') (by decide) 4294967295
    rw [Span.position, Position.ofOffset_eq_behind, Position.begun_of_le hle, htext,
      Position.behind, hline, hcolumn]
    rfl
  have hrender : d.render (some script) =
      script.name ++ ":" ++ "1:0" ++ ": error: " ++ d.message := by
    rw [hnumbers]
    change script.name ++ ":" ++ (stop.position script.text).text ++ ": error: " ++ d.message = _
    rw [hposition]
    rfl
  refine ⟨hsize ▸ by decide, by decide, d, tree_letters "t.mint" 4294967294, by decide, hrender, ?_⟩
  intro before after hsplit heq
  -- Every part of the text is on the first line, and no column of it is zero.
  have hletters : before.toList ++ after.toList = List.replicate 4294967295 'a' := by
    rw [← String.toList_append, ← hsplit, htext]
  obtain ⟨-, hbefore, -⟩ := List.append_eq_replicate_iff.mp hletters
  obtain ⟨hline, hcolumn⟩ := Position.behind_line (c := 'a') (by decide) before.toList.length
  rw [← hbefore] at hline hcolumn
  rw [hrender, hnumbers, hline, hcolumn, String.append_left_inj, String.append_left_inj,
    String.append_right_inj, String.append_right_inj] at heq
  have hzero := congrArg Numeral.value (String.ofList_injective heq)
  rw [(Numeral.digits_ten _).2.2, (Numeral.digits_ten _).2.2] at hzero
  exact absurd hzero (Nat.succ_ne_zero _).symm

end Treewalk
