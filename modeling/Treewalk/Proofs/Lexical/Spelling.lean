import Treewalk.Proofs.Lexical.Symbols
import Treewalk.Proofs.Text.Lines

/-!
# Lexical — Spelling

A text for every sequence of kinds that a program can hold.  `TokenKind.source` writes one kind: a
number below zero with a minus sign, a text between quotation marks with its backslashes, quotation
marks and line ends escaped.  `spell` writes a sequence, with a blank behind each kind except inside
parentheses and before a semicolon.

What a lexeme needs is that the character behind it does not go on with it.  Every run of characters
comes with that condition (`Stops`), and the three characters that may follow a kind here meet it
for every class of lexemes (`Lexeme.Ends`).

* `isName_of_reads`: a name that is read from a text is a word and no keyword.
* `reads_spell`: what is spelled is read back, if every name in it is one.  A number below zero is
  read as a minus sign and a number, also if it is the least.
-/

namespace Treewalk

open Treewalk.Symbol Lexeme Text

/-! ### Lexemes at the head of a text -/

/-- A character of a class without blanks is no blank. -/
theorem Lexeme.not_isGap {p : Char → Bool}
    (hp : [' ', '\t', '\r', '\n', '\x0c'].any p = false) {c : Char} (h : p c = true) :
    ¬ isGap c = true := by
  intro hg
  have hmem : c ∈ [' ', '\t', '\r', '\n', '\x0c'] := by
    simpa [isGap, or_assoc] using hg
  exact List.any_eq_false.mp hp c hmem h

theorem Lexeme.not_isDigit {c : Char} (h : isWordStart c = true) : ¬ c.isDigit = true := by
  rw [isWordStart, Bool.or_eq_true, beq_iff_eq] at h
  rcases h with h | rfl
  · delta Char.isAlpha Char.isUpper Char.isLower at h
    delta Char.isDigit
    grind
  · decide

theorem Lexeme.cut_gap {c : Char} (h : isGap c = true) (rest : List Char) :
    cut c rest = (.gap, run isGap rest) := by
  rw [cut, if_pos h]

theorem Lexeme.cut_digits {c : Char} (h : c.isDigit = true) (rest : List Char) :
    cut c rest = (.digits, run Char.isDigit rest) := by
  have hg : ¬ isGap c = true := not_isGap (by decide) h
  rw [cut, if_neg hg, if_pos h]

theorem Lexeme.cut_word {c : Char} (h : isWordStart c = true) (rest : List Char) :
    cut c rest = (.word, run isWordPart rest) := by
  have hg : ¬ isGap c = true := not_isGap (by decide) h
  have hd : ¬ c.isDigit = true := not_isDigit h
  rw [cut, if_neg hg, if_neg hd, if_pos h]

/-- A lexeme that is a run goes as far as the run does. -/
theorem Symbol.ofText_run {c : Char} {rest : List Char} {shape : Shape} {p : Char → Bool}
    (h : cut c rest = (shape, Lexeme.run p rest)) :
    ofText (c :: rest) =
      (ofLexeme? shape (c :: rest.takeWhile p)).toList ++ ofText (rest.dropWhile p) := by
  rw [ofText_cons h, Lexeme.run, take_length_takeWhile, drop_length_takeWhile]

/-- A blank says nothing. -/
theorem Symbol.ofText_gap {c : Char} (h : isGap c = true) (rest : List Char) :
    ofText (c :: rest) = ofText rest := by
  -- A run of blanks is skipped as a whole, so one blank more makes no difference.
  have hskip : ∀ {d : Char} {cs : List Char}, isGap d = true →
      ofText (d :: cs) = ofText (cs.dropWhile isGap) :=
    fun hd => ofText_run (cut_gap hd _)
  rw [hskip h]
  cases rest with
  | nil => rfl
  | cons d cs =>
      by_cases hd : isGap d = true
      · rw [List.dropWhile_cons_of_pos hd, hskip hd]
      · rw [List.dropWhile_cons_of_neg hd]

theorem Symbol.ofText_digits {c : Char} {ds rest : List Char} (hc : c.isDigit = true)
    (hds : ∀ d ∈ ds, d.isDigit = true) (hr : Stops Char.isDigit rest) :
    ofText (c :: (ds ++ rest)) = .digits (c :: ds) :: ofText rest := by
  rw [ofText_run (cut_digits hc _), takeWhile_run hds hr, dropWhile_run hds hr]
  rfl

theorem Symbol.ofText_word {c : Char} {w rest : List Char} (hc : isWordStart c = true)
    (hw : ∀ d ∈ w, isWordPart d = true) (hr : Stops isWordPart rest) :
    ofText (c :: (w ++ rest)) = .kind (wordKind (String.ofList (c :: w))) :: ofText rest := by
  rw [ofText_run (cut_word hc _), takeWhile_run hw hr, dropWhile_run hw hr]
  rfl

/-! ### Names -/

/-- A letter or underscore, then letters, digits and underscores. -/
def Lexeme.isWord : List Char → Bool
  | [] => false
  | c :: cs => isWordStart c && cs.all isWordPart

/-- The word is a name: it is none of the keywords. -/
def IsName (x : String) : Prop :=
  Lexeme.isWord x.toList = true ∧ x ∉ ["print", "input", "if", "else", "while"]

instance (x : String) : Decidable (IsName x) := inferInstanceAs (Decidable (_ ∧ _))

theorem Lexeme.wordKind_eq_name_iff {x y : String} :
    wordKind x = .name y ↔ x = y ∧ x ∉ ["print", "input", "if", "else", "while"] := by
  have hmem : Keyword.ofWord? x = none ↔ x ∉ ["print", "input", "if", "else", "while"] := by
    simp [Keyword.ofWord?, Keyword.all, Keyword.spelling, @eq_comm _ x]
  unfold wordKind
  cases h : Keyword.ofWord? x with
  | none => simp [hmem.mp h]
  | some k =>
      have hno : ¬ x ∉ ["print", "input", "if", "else", "while"] := by
        rw [← hmem, h]
        exact fun h => nomatch h
      simp only [reduceCtorEq, false_iff, not_and]
      exact fun _ => hno

theorem Lexeme.textReach_ne_word {n : Nat} {cs : List Char} : (textReach n cs).1 ≠ .word := by
  fun_induction textReach n cs <;> simp_all

/-- A lexeme of the class of words is one. -/
theorem Lexeme.isWord_of_cut {c : Char} {rest : List Char} {n : Nat}
    (h : cut c rest = (.word, n)) : isWord (c :: rest.take n) = true := by
  by_cases hc : isWordStart c = true
  · rw [cut_word hc] at h
    obtain ⟨-, rfl⟩ := Prod.mk.inj h
    rw [run, take_length_takeWhile, isWord, hc, List.all_takeWhile]
    rfl
  · -- No other branch of the cut makes a word.
    have hshape := congrArg Prod.fst h
    unfold cut at hshape
    rw [if_neg hc] at hshape
    split at hshape
    · cases hshape
    split at hshape
    · cases hshape
    split at hshape
    · exact absurd hshape textReach_ne_word
    split at hshape
    · cases hshape
    split at hshape
    · cases hshape
    split at hshape <;> cases hshape

/-- Every name among the symbols of a text is one. -/
theorem Symbol.isName_of_mem_ofText {cs : List Char} {x : String}
    (h : .kind (.name x) ∈ ofText cs) : IsName x := by
  fun_induction ofText cs with
  | case1 => cases h
  | case2 c rest shape n hcut ih =>
      rcases List.mem_append.mp h with h | h
      · rw [Option.mem_toList] at h
        cases shape with
        | word =>
            obtain ⟨rfl, hx⟩ := wordKind_eq_name_iff.mp (kind.inj (Option.some.inj h))
            exact ⟨by rw [String.toList_ofList]; exact isWord_of_cut hcut, hx⟩
        | _ => cases h
      · exact ih h

/-- Every name that is read from a text is one. -/
theorem isName_of_reads {m : Bool} {ys : List Symbol} {ks : List TokenKind}
    (h : Reads m ys ks) (hys : ∀ x, .kind (.name x) ∈ ys → IsName x) :
    ∀ x, .name x ∈ ks → IsName x := by
  intro x hx
  obtain ⟨y, hy, b, hk⟩ := h.exists_symbol hx
  cases y with
  | digits ds => simp [kind?] at hk
  | kind k =>
      cases hk
      exact hys x hy
  | offence => cases hk

/-! ### Texts -/

/-- What stands between quotation marks for a text. -/
def Escape.encode : List Char → List Char
  | [] => []
  | c :: cs =>
    if c = '\n' then '\\' :: 'n' :: encode cs
    else if c = '"' ∨ c = '\\' then '\\' :: c :: encode cs
    else c :: encode cs

theorem Escape.decodeOnto_encode (done cs : List Char) :
    decodeOnto done (encode cs) = done.reverse ++ cs := by
  induction cs generalizing done with
  | nil => simp [encode, decodeOnto]
  | cons c cs ih =>
      unfold encode
      split
      · next h =>
          subst h
          simp [decodeOnto, resolve?, ih]
      · split
        · next h =>
            rcases h with rfl | rfl <;> simp [decodeOnto, resolve?, ih]
        · next hn h =>
            have hc : c ≠ '\\' := fun heq => h (.inr heq)
            rw [decodeOnto]
            · simp [ih]
            all_goals simp [hc]

theorem Escape.decode_encode (x : String) : decode (encode x.toList) = x := by
  rw [decode, decodeOnto_encode]
  simp

/-- The encoded text ends at its closing quotation mark. -/
theorem Lexeme.textReach_encode (n : Nat) (cs rest : List Char) :
    textReach n (Escape.encode cs ++ '"' :: rest) =
      (.closedText, n + (Escape.encode cs).length + 1) := by
  induction cs generalizing n with
  | nil => simp [Escape.encode, textReach]
  | cons c cs ih =>
      unfold Escape.encode
      split
      · simp [textReach, ih]
        omega
      · split
        · next h =>
            rcases h with rfl | rfl <;> simp [textReach, ih] <;> omega
        · next hn h =>
            have hc : c ≠ '\\' := fun heq => h (.inr heq)
            have hq : c ≠ '"' := fun heq => h (.inl heq)
            rw [List.cons_append, textReach]
            · simp [hn, hq, ih]
              omega
            all_goals simp [hc]

theorem Symbol.ofText_text (x : String) (rest : List Char) :
    ofText ('"' :: (Escape.encode x.toList ++ '"' :: rest)) = .kind (.text x) :: ofText rest := by
  have hcut : cut '"' (Escape.encode x.toList ++ '"' :: rest) =
      (.closedText, (Escape.encode x.toList).length + 1) := by
    have h : cut '"' (Escape.encode x.toList ++ '"' :: rest) =
      textReach 0 (Escape.encode x.toList ++ '"' :: rest) := rfl
    rw [h, textReach_encode, Nat.zero_add]
  rw [ofText_cons hcut, List.take_length_add_append, List.drop_length_add_append]
  simp [ofLexeme?, Escape.decode_encode]

/-! ### Numbers -/

theorem Numeral.digit_decimal : ∀ d < 10, (digit d).isDigit = true ∧ (digit d).toNat - 48 = d := by
  decide

/-- The digits of a number are digits, at least one, and spell it. -/
theorem Numeral.digits_ten (n : Nat) :
    digits 10 n ≠ [] ∧ (∀ c ∈ digits 10 n, c.isDigit = true) ∧ value (digits 10 n) = n := by
  induction n using Nat.strongRecOn with
  | ind n ih =>
      rw [digits]
      split
      · next h =>
          obtain ⟨-, hall, hval⟩ := ih (n / 10) (by omega)
          have hd := digit_decimal (n % 10) (by omega)
          refine ⟨by simp, fun c hc => ?_, ?_⟩
          · rcases List.mem_append.mp hc with hc | hc
            · exact hall c hc
            · rw [List.mem_singleton.mp hc]
              exact hd.1
          · rw [value] at hval
            rw [value, List.foldl_append, hval]
            simp only [List.foldl_cons, List.foldl_nil, hd.2]
            omega
      · next h =>
          have hd := digit_decimal n (by omega)
          refine ⟨by simp, fun c hc => ?_, ?_⟩
          · rw [List.mem_singleton.mp hc]
            exact hd.1
          · simp [value, hd.2]

theorem Symbol.ofText_numeral (n : Nat) {rest : List Char} (hr : Stops Char.isDigit rest) :
    ofText (Numeral.digits 10 n ++ rest) = .digits (Numeral.digits 10 n) :: ofText rest := by
  obtain ⟨hne, hall, -⟩ := Numeral.digits_ten n
  cases h : Numeral.digits 10 n with
  | nil => exact absurd h hne
  | cons c ds =>
      rw [h] at hall
      exact ofText_digits (hall c List.mem_cons_self)
        (fun d hd => hall d (List.mem_cons_of_mem _ hd)) hr

/-! ### Kinds -/

namespace TokenKind

/-- How a source writes a kind.  The end of the source is not written. -/
def source : TokenKind → List Char
  | number n => Numeral.ofInt n.toInt
  | text x => '"' :: (Escape.encode x.toList ++ ['"'])
  | name x => x.toList
  | keyword k => k.spelling.toList
  | mark m => m.spelling.toList
  | finish => []

/-- The kinds that are read where a kind is written: a number below zero is a minus sign and a
number. -/
def written : TokenKind → List TokenKind
  | number n => if n.toInt < 0 then [.mark .minus, .number (-n)] else [.number n]
  | k => [k]

/-- The kind can stand in a program. -/
def Plain : TokenKind → Prop
  | name x => IsName x
  | finish => False
  | _ => True

@[simp] theorem plain_number (n : Int64) : (number n).Plain := trivial

@[simp] theorem plain_text (x : String) : (text x).Plain := trivial

@[simp] theorem plain_name (x : String) : (name x).Plain ↔ IsName x := Iff.rfl

@[simp] theorem plain_keyword (k : Keyword) : (keyword k).Plain := trivial

@[simp] theorem plain_mark (m : Mark) : (mark m).Plain := trivial

end TokenKind

/-- A character that no lexeme but a text goes on with. -/
def Lexeme.Ends (rest : List Char) : Prop := ∀ c ∈ rest.head?, c = ' ' ∨ c = ')' ∨ c = ';'

theorem Lexeme.Ends.nil : Ends [] := fun _ h => nomatch h

theorem Lexeme.Ends.blank {cs : List Char} : Ends (' ' :: cs) := fun c hc => by
  cases hc
  exact .inl rfl

theorem Lexeme.Ends.stops {rest : List Char} (h : Ends rest) {p : Char → Bool}
    (hp : [' ', ')', ';'].any p = false) : Stops p rest := by
  intro c hc
  have hmem : c ∈ [' ', ')', ';'] := by simpa using h c hc
  exact Bool.eq_false_iff.mpr (List.any_eq_false.mp hp c hmem)

theorem Lexeme.Ends.head_ne {rest : List Char} (h : Ends rest) {c : Char}
    (hc : c ∉ [' ', ')', ';']) : rest.head? ≠ some c :=
  fun heq => hc (by simpa using h c heq)

/-- A mark in front of what ends it is cut off, and an opening parenthesis in front of anything. -/
theorem Symbol.ofText_mark {m : Mark} {rest : List Char} (h : m = .openParen ∨ Ends rest) :
    ofText (m.spelling.toList ++ rest) = .kind (.mark m) :: ofText rest := by
  have hone : ∀ c, m.spelling.toList = [c] → cut c rest = (.mark m, 0) →
      ofText (m.spelling.toList ++ rest) = .kind (.mark m) :: ofText rest := by
    intro c hc hcut
    rw [hc, List.singleton_append, ofText_cons hcut]
    rfl
  cases m with
  | equal => exact ofText_cons (c := '=') rfl
  | assign =>
      -- Behind an equals sign stands no second one.
      refine hone '=' rfl ?_
      have hne := (h.resolve_left (fun h => nomatch h)).head_ne (c := '=') (by decide)
      simp [cut, hne, isGap, isWordStart, single?]
  | slash =>
      refine hone '/' rfl ?_
      have hne := (h.resolve_left (fun h => nomatch h)).head_ne (c := '/') (by decide)
      simp [cut, hne, isGap, isWordStart, single?]
  | plus => exact hone '+' rfl rfl
  | minus => exact hone '-' rfl rfl
  | star => exact hone '*' rfl rfl
  | percent => exact hone '%' rfl rfl
  | less => exact hone '<' rfl rfl
  | greater => exact hone '>' rfl rfl
  | openParen => exact hone '(' rfl rfl
  | closeParen => exact hone ')' rfl rfl
  | openBrace => exact hone '\x7b' rfl rfl
  | closeBrace => exact hone '\x7d' rfl rfl
  | semicolon => exact hone ';' rfl rfl

theorem Symbol.ofText_ofWord {x : String} (hx : isWord x.toList = true) {rest : List Char}
    (hr : Stops isWordPart rest) :
    ofText (x.toList ++ rest) = .kind (wordKind x) :: ofText rest := by
  cases h : x.toList with
  | nil => rw [h] at hx; cases hx
  | cons c w =>
      rw [h, isWord, Bool.and_eq_true, List.all_eq_true] at hx
      rw [List.cons_append, ofText_word hx.1 hx.2 hr, ← h, String.ofList_toList]

theorem Symbol.kind?_numeral {m : Bool} {k : Nat}
    (h : k < Numeral.bound ∨ m = true ∧ k = Numeral.bound) :
    (Symbol.digits (Numeral.digits 10 k)).kind? m = some (.number (.ofNat k)) := by
  rw [kind?, literal?_eq_some_iff.mpr ⟨rfl, _⟩, (Numeral.digits_ten k).2.2]
  · rfl
  · rwa [(Numeral.digits_ten k).2.2]

/-- A number is read as it is written, behind a minus sign or not. -/
theorem reads_number (n : Int64) {rest : List Char} (hr : Ends rest) {ls : List TokenKind}
    (h : Reads false (ofText rest) ls) (m : Bool) :
    Reads m (ofText ((TokenKind.number n).source ++ rest))
      ((TokenKind.number n).written ++ ls) := by
  have hstops : Stops Char.isDigit rest := hr.stops (by decide)
  have hlo := n.le_toInt
  have hhi := n.toInt_lt
  have hn := Int64.ofInt_toInt n
  rw [TokenKind.source, TokenKind.written]
  cases hv : n.toInt with
  | ofNat k =>
      rw [hv] at hlo hhi hn
      have hk : k < Numeral.bound := Int.ofNat_lt.mp hhi
      have hn' : n = .ofNat k := hn.symm.trans Int64.ofInt_eq_ofNat
      have hpos : ¬ Int.ofNat k < 0 := Int.not_lt.mpr (Int.natCast_nonneg k)
      rw [Numeral.ofInt, ofText_numeral k hstops, if_neg hpos, hn']
      exact .cons (kind?_numeral (.inl hk)) h
  | negSucc k =>
      rw [hv] at hlo hhi hn
      -- The least word is read behind its minus sign, as the least word again.
      have hk : k + 1 ≤ Numeral.bound := by
        have hb : ((2 ^ 63 : Nat) : Int) = Numeral.bound := rfl
        omega
      have hn' : -n = .ofNat (k + 1) := by
        rw [← hn, ← Int64.ofInt_neg, Int.neg_negSucc]
        exact Int64.ofInt_eq_ofNat
      rw [Numeral.ofInt, if_pos (Int.negSucc_lt_zero k), List.cons_append,
        ofText_cons (c := '-') rfl, hn']
      refine .cons rfl ?_
      rw [List.drop_zero, ofText_numeral (k + 1) hstops]
      refine .cons (kind?_numeral ?_) h
      rcases Nat.lt_or_eq_of_le hk with hk | hk
      · exact .inl hk
      · exact .inr ⟨rfl, hk⟩

/-- **A kind is read as it is written**, if what follows ends it. -/
theorem reads_source {k : TokenKind} (hk : k.Plain) {rest : List Char}
    (hr : k = .mark .openParen ∨ Ends rest) {ls : List TokenKind}
    (h : Reads (k == .mark .minus) (ofText rest) ls) (m : Bool) :
    Reads m (ofText (k.source ++ rest)) (k.written ++ ls) := by
  cases k with
  | number n => exact reads_number n (hr.resolve_left fun h => nomatch h) h m
  | text x =>
      have heq : (TokenKind.text x).source ++ rest =
          '"' :: (Escape.encode x.toList ++ '"' :: rest) := by
        simp [TokenKind.source]
      rw [heq, ofText_text]
      exact .cons rfl h
  | name x =>
      have hstops : Stops isWordPart rest :=
        (hr.resolve_left fun h => nomatch h).stops (by decide)
      rw [TokenKind.source, ofText_ofWord hk.1 hstops, wordKind_eq_name_iff.mpr ⟨rfl, hk.2⟩]
      exact .cons rfl h
  | keyword w =>
      have hstops : Stops isWordPart rest :=
        (hr.resolve_left fun h => nomatch h).stops (by decide)
      have hword : isWord w.spelling.toList = true ∧ wordKind w.spelling = .keyword w := by
        cases w <;> decide
      rw [TokenKind.source, ofText_ofWord hword.1 hstops, hword.2]
      exact .cons rfl h
  | mark w =>
      rw [TokenKind.source, ofText_mark (hr.imp_left TokenKind.mark.inj)]
      exact .cons rfl h
  | finish => exact hk.elim

theorem reads_source_blank {k : TokenKind} (hk : k.Plain) {rest : List Char} {ls : List TokenKind}
    (h : Reads (k == .mark .minus) (ofText rest) ls) (m : Bool) :
    Reads m (ofText (k.source ++ ' ' :: rest)) (k.written ++ ls) := by
  rw [← ofText_gap (by decide : isGap ' ' = true)] at h
  exact reads_source hk (.inr .blank) h m

/-! ### Sequences of kinds -/

/-- No blank is written between the two: behind an opening parenthesis, and before a closing one or
a semicolon. -/
def glued (k : TokenKind) (next : Option TokenKind) : Bool :=
  k == .mark .openParen || next == some (.mark .closeParen) || next == some (.mark .semicolon)

/-- The text of a sequence of kinds. -/
def spell : List TokenKind → List Char
  | [] => []
  | k :: ks => k.source ++ ((if glued k ks.head? then [] else [' ']) ++ spell ks)

/-- **What is spelled is read back.** -/
theorem reads_spell {ks : List TokenKind} (hks : ∀ k ∈ ks, k.Plain) (m : Bool) :
    Reads m (ofText (spell ks)) (ks.flatMap TokenKind.written) := by
  induction ks generalizing m with
  | nil =>
      rw [spell, ofText]
      exact .nil
  | cons k ks ih =>
      have ih := ih (fun l hl => hks l (List.mem_cons_of_mem _ hl)) (k == .mark .minus)
      rw [spell, List.flatMap_cons]
      by_cases hg : glued k ks.head? = true
      · rw [if_pos hg, List.nil_append]
        refine reads_source (hks k List.mem_cons_self) ?_ ih m
        -- Without a blank the next character is a mark that ends every lexeme.
        rw [glued, Bool.or_eq_true, Bool.or_eq_true, beq_iff_eq, beq_iff_eq, beq_iff_eq] at hg
        rcases hg with (hg | hg) | hg
        · exact .inl hg
        · obtain ⟨ls, rfl⟩ := List.head?_eq_some_iff.mp hg
          have hhead : (spell (.mark .closeParen :: ls)).head? = some ')' := rfl
          exact .inr fun c hc => .inr (.inl (Option.some.inj (hhead.symm.trans hc)).symm)
        · obtain ⟨ls, rfl⟩ := List.head?_eq_some_iff.mp hg
          have hhead : (spell (.mark .semicolon :: ls)).head? = some ';' := rfl
          exact .inr fun c hc => .inr (.inr (Option.some.inj (hhead.symm.trans hc)).symm)
      · rw [if_neg hg]
        exact reads_source_blank (hks k List.mem_cons_self) ih m

end Treewalk
