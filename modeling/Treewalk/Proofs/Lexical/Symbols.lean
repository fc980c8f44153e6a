import Treewalk.Program.Script
import Treewalk.Proofs.Grammar.Completeness

/-!
# Lexical — Symbols

What a text says before its numbers are read.  `Symbol.ofText` cuts a text into lexemes and keeps a
symbol for each that is not a blank or a comment; the digits of a number are still digits there.
`Reads m ys ks` turns symbols into kinds one after another, where `m` tells that a minus sign stands
right before them, which decides what the digits of the least word mean.

* `lex_content`, `exists_lex`: a text has tokens exactly if its symbols can be read, and the kinds
  of its tokens are what is read.
* `Script.tree_eq_ok_iff`: the tree of a script is the grammar's tree of what is read.
-/

namespace Treewalk

open Grammar

/-! ### Symbols of a text -/

/-- A lexeme that calls for a token. -/
inductive Symbol where
  /-- The digits of a number. -/
  | digits (ds : List Char)
  /-- A lexeme whose kind is known at once. -/
  | kind (k : TokenKind)
  /-- A lexeme that is no token. -/
  | offence
  deriving DecidableEq, Repr

namespace Symbol

/-- The symbol of a lexeme, and none for blanks and comments. -/
def ofLexeme? : Lexeme.Shape → List Char → Option Symbol
  | .gap, _ | .comment, _ => none
  | .digits, ds => some (.digits ds)
  | .word, w => some (.kind (Lexeme.wordKind (String.ofList w)))
  | .mark m, _ => some (.kind (.mark m))
  | .closedText, t => some (.kind (.text (Escape.decode t.tail.dropLast)))
  | .openText, _ | .stray, _ => some .offence

/-- The symbols of a text. -/
def ofText : List Char → List Symbol
  | [] => []
  | c :: rest =>
    let (shape, n) := Lexeme.cut c rest
    (ofLexeme? shape (c :: rest.take n)).toList ++ ofText (rest.drop n)
termination_by cs => cs.length
decreasing_by
  simp only [List.length_drop, List.length_cons]
  omega

/-- The kind of a symbol, behind a minus sign or not. -/
def kind? (afterMinus : Bool) : Symbol → Option TokenKind
  | digits ds => (Lexeme.literal? afterMinus ds).map .number
  | kind k => some k
  | offence => none

/-- `Reads m ys ks`: behind a minus sign if `m` holds, the symbols `ys` are the kinds `ks`. -/
inductive Reads : Bool → List Symbol → List TokenKind → Prop where
  | nil {m : Bool} : Reads m [] []
  | cons {m : Bool} {y : Symbol} {ys : List Symbol} {k : TokenKind} {ks : List TokenKind} :
      y.kind? m = some k → Reads (k == .mark .minus) ys ks → Reads m (y :: ys) (k :: ks)

/-- Digits that can be read spell a word, or one more than the greatest behind a minus sign. -/
theorem literal?_eq_some_iff {m : Bool} {ds : List Char} {n : Int64} :
    Lexeme.literal? m ds = some n ↔
      n = .ofNat (Numeral.value ds) ∧
        (Numeral.value ds < Numeral.bound ∨ m = true ∧ Numeral.value ds = Numeral.bound) := by
  have hbound : Int64.minValue = .ofNat Numeral.bound := by decide
  simp only [Lexeme.literal?]
  split
  · next h => simp [h, eq_comm]
  · next h =>
      split
      · next h' => simp [h', hbound, eq_comm]
      · next h' => simp [h, h']

/-! ### Tokens of a text -/

/-- A lexeme gives a kind exactly if its symbol does. -/
theorem kind_eq_ok_iff {shape : Lexeme.Shape} {text : List Char} {span : Span} {m : Bool}
    {k : Option TokenKind} :
    Lexeme.kind shape text span m = .ok k ↔
      (ofLexeme? shape text = none ∧ k = none) ∨
        ∃ y k', ofLexeme? shape text = some y ∧ y.kind? m = some k' ∧ k = some k' := by
  cases shape with
  | digits =>
      simp only [Lexeme.kind, ofLexeme?]
      cases h : Lexeme.literal? m text <;> simp [kind?, h, eq_comm]
  | _ => simp [Lexeme.kind, ofLexeme?, kind?, eq_comm]

/-- No lexeme is the end of the source. -/
theorem ofLexeme?_ne_finish {shape : Lexeme.Shape} {text : List Char} {y : Symbol} {m : Bool}
    {k : TokenKind} (hy : ofLexeme? shape text = some y) (hk : y.kind? m = some k) :
    k ≠ .finish := by
  rintro rfl
  cases shape with
  | word =>
      cases hy
      simp only [kind?, Lexeme.wordKind] at hk
      split at hk <;> cases hk
  | digits =>
      cases hy
      simp [kind?] at hk
  | gap | comment => cases hy
  | _ => cases hy; cases hk

theorem ofText_cons {c : Char} {rest : List Char} {shape : Lexeme.Shape} {n : Nat}
    (h : Lexeme.cut c rest = (shape, n)) :
    ofText (c :: rest) =
      (ofLexeme? shape (c :: rest.take n)).toList ++ ofText (rest.drop n) := by
  rw [ofText, h]

end Symbol

open Treewalk.Symbol

theorem Token.endsInMinus_cons (t : Token) (ts : List Token) :
    Token.endsInMinus (t :: ts) = (t.kind == .mark .minus) := by
  obtain ⟨k, span⟩ := t
  cases k with
  | mark m => cases m <;> rfl
  | _ => rfl

/-- The tokens of a text, behind `done`, are what is read from its symbols. -/
theorem lexFrom_reads {offset : Nat} {done : List Token} {cs : List Char} {ts : List Token}
    (h : lexFrom offset done cs = .ok ts) :
    ∃ ks, Reads (Token.endsInMinus done) (ofText cs) ks ∧ .finish ∉ ks ∧
      ts.map (·.kind) = done.reverse.map (·.kind) ++ (ks ++ [.finish]) := by
  fun_induction lexFrom offset done cs with
  | case1 offset done =>
      cases h
      exact ⟨[], by rw [ofText]; exact .nil, List.not_mem_nil, by simp⟩
  | case2 => cases h
  | case3 offset done c rest shape n hcut text stop span hkind ih =>
      obtain ⟨ks, hr, hf, hts⟩ := ih h
      obtain ⟨hy, -⟩ | ⟨_, _, _, _, hk⟩ := kind_eq_ok_iff.mp hkind
      · exact ⟨ks, by rwa [ofText_cons hcut, hy], hf, hts⟩
      · cases hk
  | case4 offset done c rest shape n hcut text stop span k hkind ih =>
      obtain ⟨ks, hr, hf, hts⟩ := ih h
      obtain ⟨-, hk⟩ | ⟨y, _, hy, hk, heq⟩ := kind_eq_ok_iff.mp hkind
      · cases hk
      cases heq
      rw [Token.endsInMinus_cons] at hr
      refine ⟨k :: ks, ?_, ?_, by rw [hts]; simp⟩
      · rw [ofText_cons hcut, hy]
        exact .cons hk hr
      · exact List.not_mem_cons_of_ne_of_not_mem (ofLexeme?_ne_finish hy hk).symm hf

/-- A text whose symbols can be read has tokens. -/
theorem exists_lexFrom (offset : Nat) (done : List Token) (cs : List Char) :
    ∀ ks, Reads (Token.endsInMinus done) (ofText cs) ks →
      ∃ ts, lexFrom offset done cs = .ok ts := by
  fun_induction lexFrom offset done cs with
  | case1 offset done => exact fun _ _ => ⟨_, rfl⟩
  | case2 offset done c rest shape n hcut text stop span e hkind =>
      intro ks h
      rw [ofText_cons hcut] at h
      -- A lexeme that is refused has no kind to read.
      cases hy : ofLexeme? shape text with
      | none => rw [kind_eq_ok_iff.mpr (.inl ⟨hy, rfl⟩)] at hkind; cases hkind
      | some y =>
          rw [hy] at h
          cases h with
          | cons hk _ => rw [kind_eq_ok_iff.mpr (.inr ⟨y, _, hy, hk, rfl⟩)] at hkind; cases hkind
  | case3 offset done c rest shape n hcut text stop span hkind ih =>
      intro ks h
      rw [ofText_cons hcut] at h
      obtain ⟨hy, -⟩ | ⟨_, _, _, _, hk⟩ := kind_eq_ok_iff.mp hkind
      · rw [hy] at h
        exact ih _ h
      · cases hk
  | case4 offset done c rest shape n hcut text stop span k hkind ih =>
      intro ks h
      rw [ofText_cons hcut] at h
      obtain ⟨-, hk⟩ | ⟨y, _, hy, hk, heq⟩ := kind_eq_ok_iff.mp hkind
      · cases hk
      cases heq
      rw [hy] at h
      cases h with
      | cons hk' hr =>
          cases hk.symm.trans hk'
          rw [← Token.endsInMinus_cons ⟨k, span⟩ done] at hr
          exact ih _ hr

theorem content_eq_of_kinds {ts : List Token} {ks : List TokenKind}
    (h : ts.map (·.kind) = ks ++ [.finish]) (hf : .finish ∉ ks) : content ts = ks := by
  have hall : ∀ k ∈ ks, decide (k ≠ TokenKind.finish) = true :=
    fun k hk => decide_eq_true fun heq => hf (heq ▸ hk)
  rw [content, h, List.takeWhile_append_of_pos hall]
  simp

/-- The kinds of a text's tokens are what is read from its symbols. -/
theorem lex_content {source : String} {ts : List Token} (h : lex source = .ok ts) :
    Reads false (ofText source.toList) (content ts) := by
  obtain ⟨ks, hr, hf, hts⟩ := lexFrom_reads h
  rwa [content_eq_of_kinds hts hf]

theorem Symbol.Reads.unique {m : Bool} {ys : List Symbol} {ks ls : List TokenKind}
    (h : Reads m ys ks) (h' : Reads m ys ls) : ks = ls := by
  induction h generalizing ls with
  | nil => cases h'; rfl
  | cons hk _ ih =>
      cases h' with
      | cons hk' h' =>
          cases hk.symm.trans hk'
          rw [ih h']

/-- Every kind that is read is that of a symbol. -/
theorem Symbol.Reads.exists_symbol {m : Bool} {ys : List Symbol} {ks : List TokenKind}
    (h : Reads m ys ks) {k : TokenKind} (hk : k ∈ ks) :
    ∃ y ∈ ys, ∃ b, y.kind? b = some k := by
  induction h with
  | nil => cases hk
  | cons hkind _ ih =>
      rcases List.mem_cons.mp hk with rfl | hk
      · exact ⟨_, List.mem_cons_self, _, hkind⟩
      · obtain ⟨y, hy, hkind⟩ := ih hk
        exact ⟨y, List.mem_cons_of_mem _ hy, hkind⟩

/-- A text has tokens if its symbols can be read, of the kinds that are read. -/
theorem exists_lex {source : String} {ks : List TokenKind}
    (h : Reads false (ofText source.toList) ks) : ∃ ts, lex source = .ok ts ∧ content ts = ks := by
  obtain ⟨ts, hts⟩ := exists_lexFrom 0 [] _ _ h
  exact ⟨ts, hts, (lex_content hts).unique h⟩

/-! ### Trees of a script -/

theorem Script.tree_of_lex {script : Script} {ts : List Token} (h : lex script.text = .ok ts)
    {root : Node} : script.tree = .ok root ↔ parse ts = some (.ok root) := by
  unfold Script.tree
  split
  · next e he => cases h.symm.trans he
  · next ts' hts =>
      cases h.symm.trans hts
      obtain ⟨r, hr⟩ := Option.isSome_iff_exists.mp (parse_isSome (lex_ends h))
      simp only [hr, Option.get_some, Option.some.injEq]
      cases r with
      | error e =>
          change Except.error _ = _ ↔ _
          simp
      | ok node =>
          change Except.ok _ = _ ↔ _
          simp

/-- **The front end is the grammar over what is read**: a script has a tree exactly if its symbols
can be read as the kinds of a program, and then it is the tree of that program. -/
theorem Script.tree_eq_ok_iff {script : Script} {root : Node} :
    script.tree = .ok root ↔
      ∃ ks, Reads false (ofText script.text.toList) ks ∧ Program ks root := by
  constructor
  · intro h
    cases hl : lex script.text with
    | error e =>
        unfold Script.tree at h
        split at h
        · cases h
        · next hts => cases hl.symm.trans hts
    | ok ts =>
        exact ⟨content ts, lex_content hl,
          program_of_parse (lex_ends hl) ((Script.tree_of_lex hl).mp h)⟩
  · rintro ⟨ks, hr, hp⟩
    obtain ⟨ts, hl, rfl⟩ := exists_lex hr
    exact (Script.tree_of_lex hl).mpr (parse_of_program (lex_ends hl) hp)

end Treewalk
