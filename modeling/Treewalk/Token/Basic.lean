import Treewalk.Source.Span
import Treewalk.Text.Quoted

/-!
# Token — Kinds and tokens

The words of the language.  A token is a kind with the span of its text; a kind is a number, a
text, a name, one of the five keywords, one of the fourteen marks, or the end of the source.

Kinds are shown in three ways: `spelling`, which is how a source writes them, `description`, for
messages, and `label`, for listings.
-/

namespace Treewalk

/-- The words that are not names. -/
inductive Keyword where
  | print | input | branch | otherwise | loop
  deriving DecidableEq, Repr

namespace Keyword

/-- Every keyword. -/
def all : List Keyword := [print, input, branch, otherwise, loop]

/-- How a source writes the keyword. -/
def spelling : Keyword → String
  | print => "print"
  | input => "input"
  | branch => "if"
  | otherwise => "else"
  | loop => "while"

/-- How a listing names the keyword. -/
def label : Keyword → String
  | print => "Print"
  | input => "Input"
  | branch => "If"
  | otherwise => "Else"
  | loop => "While"

/-- The keyword of a word. -/
def ofWord? (word : String) : Option Keyword :=
  all.find? fun k => k.spelling == word

end Keyword

/-- The operators and the punctuation. -/
inductive Mark where
  | assign | equal | plus | minus | star | slash | percent | less | greater
  | openParen | closeParen | openBrace | closeBrace | semicolon
  deriving DecidableEq, Repr

namespace Mark

/-- How a source writes the mark. -/
def spelling : Mark → String
  | assign => "="
  | equal => "=="
  | plus => "+"
  | minus => "-"
  | star => "*"
  | slash => "/"
  | percent => "%"
  | less => "<"
  | greater => ">"
  | openParen => "("
  | closeParen => ")"
  | openBrace => "\x7b"
  | closeBrace => "\x7d"
  | semicolon => ";"

/-- How a listing names the mark. -/
def label : Mark → String
  | assign => "Assign"
  | equal => "EqEq"
  | plus => "Plus"
  | minus => "Minus"
  | star => "Star"
  | slash => "Slash"
  | percent => "Percent"
  | less => "Lt"
  | greater => "Gt"
  | openParen => "LParen"
  | closeParen => "RParen"
  | openBrace => "LBrace"
  | closeBrace => "RBrace"
  | semicolon => "Semicolon"

end Mark

/-- What a token is. -/
inductive TokenKind where
  | number (n : Int64)
  | text (s : String)
  | name (s : String)
  | keyword (k : Keyword)
  | mark (m : Mark)
  | finish
  deriving DecidableEq, Repr

namespace TokenKind

/-- The kind as a source writes it; a text is quoted, and the end has a stand-in. -/
def spelling : TokenKind → String
  | number n => Numeral.ofWord n
  | text s => Text.quote s
  | name s => s
  | keyword k => k.spelling
  | mark m => m.spelling
  | finish => "<eof>"

/-- The kind as messages speak of it. -/
def description : TokenKind → String
  | number n => "integer `" ++ Numeral.ofWord n ++ "`"
  | text s => "string " ++ Text.quote s
  | name s => "identifier `" ++ s ++ "`"
  | finish => "end of file"
  | k => "`" ++ k.spelling ++ "`"

/-- The kind as listings show it. -/
def label : TokenKind → String
  | number n => "Int(" ++ Numeral.ofWord n ++ ")"
  | text s => "String(" ++ Text.quote s ++ ")"
  | name s => "Ident(" ++ Text.quote s ++ ")"
  | keyword k => k.label
  | mark m => m.label
  | finish => "Eof"

/-- The two kinds differ at most in the number, text or name that they carry. -/
def alike : TokenKind → TokenKind → Bool
  | number _, number _ => true
  | text _, text _ => true
  | name _, name _ => true
  | keyword k, keyword l => k == l
  | mark m, mark n => m == n
  | finish, finish => true
  | _, _ => false

end TokenKind

/-- A kind and where it stands. -/
structure Token where
  kind : TokenKind
  span : Span
  deriving DecidableEq, Repr

/-- The token as listings show it. -/
def Token.label (t : Token) : String :=
  t.kind.label ++ " @ " ++ t.span.text

/-- The end of a source that has no text. -/
def Token.nothing : Token := ⟨.finish, .empty⟩

end Treewalk
