import Treewalk.Token.Basic

/-!
# Parse — Errors

Why a list of tokens is no program.  An error says what was found and where, what was wanted
instead, and inside which construct.  The first construct that is named stays
(`ParseError.inside`), and an error about a whole statement names none.
-/

namespace Treewalk

/-- What the grammar calls for. -/
inductive Expectation where
  /-- A token of this kind. -/
  | kind (k : TokenKind)
  /-- A name. -/
  | identifier
  /-- Something told in words. -/
  | phrase (s : String)
  deriving DecidableEq, Repr

/-- What is called for, in words. -/
def Expectation.text : Expectation → String
  | kind k => "`" ++ k.spelling ++ "`"
  | identifier => "an identifier"
  | phrase s => s

/-- The constructs of the language that take more than one token. -/
inductive Construct where
  | assignment | input | print | branch | loop | block
  deriving DecidableEq, Repr

/-- The construct in words. -/
def Construct.description : Construct → String
  | assignment => "an assignment"
  | input => "an input statement"
  | print => "a print statement"
  | branch => "an if statement"
  | loop => "a while loop"
  | block => "a block"

/-- Why a list of tokens is no program. -/
inductive ParseError where
  /-- Another token was called for. -/
  | unexpected (expected : Expectation) (found : String) (span : Span)
      (construct : Option Construct)
  /-- The token begins no statement. -/
  | noStatement (found : String) (span : Span)
  /-- The token begins no expression. -/
  | noExpression (found : String) (span : Span) (construct : Option Construct)
  deriving DecidableEq, Repr

namespace ParseError

/-- The span of the token that was found. -/
def span : ParseError → Span
  | unexpected _ _ s _ => s
  | noStatement _ s => s
  | noExpression _ s _ => s

/-- What was found, in words. -/
def found : ParseError → String
  | unexpected _ f _ _ => f
  | noStatement f _ => f
  | noExpression f _ _ => f

/-- What was called for, if the error tells. -/
def expected? : ParseError → Option Expectation
  | unexpected e _ _ _ => some e
  | _ => none

/-- The construct that the error belongs to, if it tells. -/
def construct? : ParseError → Option Construct
  | unexpected _ _ _ c => c
  | noStatement _ _ => none
  | noExpression _ _ c => c

/-- The error, told to belong to `c` unless it already belongs to a construct. -/
def inside (c : Construct) : ParseError → ParseError
  | unexpected e f s d => unexpected e f s (d.or (some c))
  | noStatement f s => noStatement f s
  | noExpression f s d => noExpression f s (d.or (some c))

/-- The construct, as the end of a message. -/
def suffix : Option Construct → String
  | none => ""
  | some c => " while parsing " ++ c.description

/-- The error in words. -/
def message : ParseError → String
  | unexpected e f _ c => "expected " ++ e.text ++ ", found " ++ f ++ suffix c
  | noStatement f _ => "expected a statement, found " ++ f
  | noExpression f _ c => "expected an expression, found " ++ f ++ suffix c

end ParseError

namespace Token

/-- The token stands where something else was called for. -/
def unexpected (t : Token) (e : Expectation) : ParseError :=
  .unexpected e t.kind.description t.span none

/-- The token must be of kind `k`, whatever it carries. -/
def demand (t : Token) (k : TokenKind) : Except ParseError Unit :=
  if t.kind.alike k then .ok () else .error (t.unexpected (.kind k))

/-- The token must be a name. -/
def demandName (t : Token) : Except ParseError String :=
  match t.kind with
  | .name s => .ok s
  | _ => .error (t.unexpected .identifier)

end Token

end Treewalk
