import Treewalk.Parse.Error

/-!
# Parse — Cursor

A place in a list of tokens.  The cursor moves on one token at a time and never past an end token.
Beyond a list that has no end token it keeps showing the last one, and before an empty list it
shows the end of an empty source.
-/

namespace Treewalk

/-- A place in a list of tokens. -/
structure Cursor where
  /-- The tokens from here on. -/
  rest : List Token
  /-- What is shown once none is left. -/
  last : Token
  deriving Repr

namespace Cursor

/-- The beginning of a list. -/
def ofList (ts : List Token) : Cursor :=
  ⟨ts, ts.getLast?.getD .nothing⟩

/-- The token here. -/
def current (c : Cursor) : Token :=
  c.rest.head?.getD c.last

/-- The token here is an end. -/
def atEnd (c : Cursor) : Bool :=
  c.current.kind == .finish

/-- The place after the token here; an end token is not passed. -/
def advance (c : Cursor) : Cursor :=
  if c.atEnd then c else { c with rest := c.rest.tail }

/-- The token here is of kind `k`, whatever it carries. -/
def check (c : Cursor) (k : TokenKind) : Bool :=
  c.current.kind.alike k

/-- Whether the token here is of kind `k`, and the place after it if it is. -/
def eat (c : Cursor) (k : TokenKind) : Bool × Cursor :=
  if c.check k then (true, c.advance) else (false, c)

/-- The error that something else was called for here. -/
def unexpected (c : Cursor) (e : Expectation) : ParseError :=
  c.current.unexpected e

/-- The span of the token here, which must be of kind `k`, and the place after it; otherwise the
error that `e` was called for. -/
def expect (c : Cursor) (k : TokenKind) (e : Expectation := .kind k) :
    Except ParseError (Span × Cursor) :=
  if c.check k then .ok (c.current.span, c.advance) else .error (c.unexpected e)

/-- The name here, which must be one, and the place after it. -/
def expectName (c : Cursor) : Except ParseError (String × Cursor) :=
  c.current.demandName.map fun s => (s, c.advance)

end Cursor

end Treewalk
