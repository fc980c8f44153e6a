import Treewalk.Token.Lexeme

/-!
# Token — From text to tokens

`lex` cuts a source into lexemes from the left and turns each into its token.  It stops at the
first offence: a character that starts nothing, a text that is not closed on its line, or digits
that spell more than a word holds.  A list of tokens always ends in `finish`.

What stands between the quotation marks of a text is decoded.  Six escapes mean another character; a
backslash before any other character stands for itself.

The greatest word has no partner of its size below zero, so the digits of `Numeral.bound` are
accepted right after a minus sign, where they mean the least word.
-/

namespace Treewalk

/-- Why a source has no tokens. -/
inductive LexError where
  /-- The character starts nothing. -/
  | stray (text : String) (span : Span)
  /-- A text without its closing quotation mark. -/
  | openText (span : Span)
  /-- Digits that spell more than a word holds. -/
  | tooLarge (digits : String) (span : Span)
  deriving DecidableEq, Repr

namespace LexError

/-- The span of the offending lexeme. -/
def span : LexError → Span
  | stray _ s => s
  | openText s => s
  | tooLarge _ s => s

/-- The error in words. -/
def message : LexError → String
  | stray text _ => "unexpected character `" ++ text ++ "`"
  | openText _ => "unterminated string literal"
  | tooLarge digits _ => "integer literal `" ++ digits ++ "` does not fit in 64 bits"

end LexError

/-! ### Texts -/

namespace Escape

/-- The character that a backslash and `c` mean together. -/
def resolve? : Char → Option Char
  | 'n' => some '\n'
  | 't' => some '\t'
  | 'r' => some '\r'
  | '\\' => some '\\'
  | '"' => some '"'
  | '0' => some '\x00'
  | _ => none

/-- The decoded characters of a text, behind those of `done`, which is in reverse. -/
def decodeOnto (done : List Char) : List Char → List Char
  | [] => done.reverse
  | ['\\'] => ('\\' :: done).reverse
  | '\\' :: c :: cs =>
    match resolve? c with
    | some d => decodeOnto (d :: done) cs
    | none => decodeOnto (c :: '\\' :: done) cs
  | c :: cs => decodeOnto (c :: done) cs

/-- The text that is meant by what stands between the quotation marks. -/
def decode (body : List Char) : String :=
  String.ofList (decodeOnto [] body)

end Escape

/-! ### Lexemes and tokens -/

namespace Lexeme

/-- The word that digits mean.  The size of the least word is accepted after a minus sign only. -/
def literal? (afterMinus : Bool) (digits : List Char) : Option Int64 :=
  let n := Numeral.value digits
  if n < Numeral.bound then some (Int64.ofNat n)
  else if afterMinus ∧ n = Numeral.bound then some Int64.minValue
  else none

/-- The kind of a word: a keyword only if it is one letter for letter. -/
def wordKind (word : String) : TokenKind :=
  match Keyword.ofWord? word with
  | some k => .keyword k
  | none => .name word

/-- The kind of token that a lexeme is, and none for blanks and comments. -/
def kind (shape : Shape) (text : List Char) (span : Span) (afterMinus : Bool) :
    Except LexError (Option TokenKind) :=
  match shape with
  | .gap | .comment => .ok none
  | .digits =>
    match literal? afterMinus text with
    | some n => .ok (some (.number n))
    | none => .error (.tooLarge (String.ofList text) span)
  | .word => .ok (some (wordKind (String.ofList text)))
  | .mark m => .ok (some (.mark m))
  | .closedText => .ok (some (.text (Escape.decode (text.tail.dropLast))))
  | .openText => .error (.openText span)
  | .stray => .error (.stray (String.ofList text) span)

/-- How many bytes the characters take. -/
def bytes (text : List Char) : Nat :=
  text.foldl (fun n c => n + c.utf8Size) 0

end Lexeme

/-- The newest token is a minus sign. -/
def Token.endsInMinus : List Token → Bool
  | ⟨.mark .minus, _⟩ :: _ => true
  | _ => false

/-- The tokens of the characters that begin at byte `offset`, behind those of `done`, which is in
reverse. -/
def lexFrom (offset : Nat) (done : List Token) : List Char → Except LexError (List Token)
  | [] => .ok ((⟨.finish, Span.ofRange offset offset⟩ :: done).reverse)
  | c :: rest =>
    let (shape, n) := Lexeme.cut c rest
    let text := c :: rest.take n
    let stop := offset + Lexeme.bytes text
    let span := Span.ofRange offset stop
    match Lexeme.kind shape text span (Token.endsInMinus done) with
    | .error e => .error e
    | .ok none => lexFrom stop done (rest.drop n)
    | .ok (some k) => lexFrom stop (⟨k, span⟩ :: done) (rest.drop n)
termination_by cs => cs.length
decreasing_by
  all_goals
    simp only [List.length_drop, List.length_cons]
    omega

/-- The tokens of a source, the end included. -/
def lex (source : String) : Except LexError (List Token) :=
  lexFrom 0 [] source.toList

/-! ### The end of every list of tokens -/

theorem lexFrom_ends (offset : Nat) (done : List Token) (cs : List Char) {ts : List Token}
    (h : lexFrom offset done cs = .ok ts) : ∃ t ∈ ts, t.kind = .finish := by
  fun_induction lexFrom offset done cs with
  | case1 offset done =>
    cases h
    exact ⟨_, List.mem_reverse.mpr (List.mem_cons_self ..), rfl⟩
  | case2 => cases h
  | case3 _ _ _ _ _ _ _ _ _ _ _ ih => exact ih h
  | case4 _ _ _ _ _ _ _ _ _ _ _ _ ih => exact ih h

/-- The tokens of a source hold an end token. -/
theorem lex_ends {source : String} {ts : List Token} (h : lex source = .ok ts) :
    ∃ t ∈ ts, t.kind = .finish :=
  lexFrom_ends 0 [] source.toList h

end Treewalk
