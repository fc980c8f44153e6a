import Treewalk.Parse.Cursor
import Treewalk.Parse.State

/-!
# Parse — From tokens to a program

`parse` feeds the tokens that a cursor shows to the parser's state, up to the first end token.  A
list without an end token is never complete: the cursor keeps showing its last token, and if that
is a minus sign or an opening parenthesis the grammar may call for more of it without end.  Then
`parse` has no answer.

Main statement: `parse_isSome`, a list that holds an end token has an answer.
-/

namespace Treewalk

namespace Parser

/-- Feeds the tokens of the cursor, `fuel` of them at most. -/
def run (negate : Node → Node) : Nat → State → Cursor → Option (Except ParseError Node)
  | 0, _, _ => none
  | fuel + 1, s, c =>
    match s.feed negate c.current with
    | .error e => some (.error e)
    | .ok (.accept root) => some (.ok root)
    | .ok (.next s) => run negate fuel s c.advance

/-- How many tokens can decide a list of `n` tokens: its own, and its last one again for each that
is still open. -/
def fuel (n : Nat) : Nat := 2 * n + 2

end Parser

/-- The program of a list of tokens, where `negate` tells what a minus sign builds. -/
def parseWith (negate : Node → Node) (ts : List Token) : Option (Except ParseError Node) :=
  Parser.run negate (Parser.fuel ts.length) .start (.ofList ts)

/-- The program of a list of tokens, the error that shows that there is none, or no answer if more
tokens are called for without end. -/
def parse (ts : List Token) : Option (Except ParseError Node) :=
  parseWith Node.negate ts

namespace Parser

/-! ### Lists that hold an end token -/

theorem State.demand_finish {t : Token} (h : t.kind = .finish) (m : Mark) (c : Construct)
    (s s' : State) : State.demand t m c s ≠ .ok (.next s') := by
  have ht : t.demand (.mark m) = .error (t.unexpected (.kind (.mark m))) := by
    rw [Token.demand, h]
    rfl
  intro hs
  rw [State.demand, ht] at hs
  cases hs

theorem State.feedStatement_finish {t : Token} (h : t.kind = .finish) (s s' : State) :
    s.feedStatement t ≠ .ok (.next s') := by
  unfold State.feedStatement
  rw [h]
  cases s.outer <;> simp

theorem State.feedEnd_finish {t : Token} (h : t.kind = .finish) (s s' : State) (p : Purpose)
    (e : Node) : s.feedEnd p e t ≠ .ok (.next s') := by
  cases p <;> exact State.demand_finish h _ _ _ _

/-- No state calls for more after an end token. -/
theorem State.feed_finish {t : Token} (h : t.kind = .finish) (negate : Node → Node)
    (s s' : State) : s.feed negate t ≠ .ok (.next s') := by
  obtain ⟨g, done, outer⟩ := s
  cases g with
  | statement => exact State.feedStatement_finish h _ _
  | assignMark | inputEnd | openParen | printEnd | openBrace => exact State.demand_finish h _ _ _ _
  | inputName => simp [State.feed, Token.demandName, h]
  | operand => simp [State.feed, State.feedOperand, h]
  | operator p ws e =>
    simp only [State.feed, State.feedOperator, h, Operator.ofKind?]
    split
    · exact State.demand_finish h _ _ _ _
    · exact State.feedEnd_finish h _ _ _ _
  | orElse =>
    simp only [State.feed, h]
    exact State.feedStatement_finish h _ _
  | elseBody =>
    simp only [State.feed, h]
    exact State.demand_finish h _ _ _ _

/-- An end token within reach of the fuel gives an answer. -/
theorem run_isSome (negate : Node → Node) (ts : List Token) :
    ∀ (fuel : Nat) (s : State) (last : Token), (∃ t ∈ ts, t.kind = .finish) → ts.length < fuel →
      (run negate fuel s ⟨ts, last⟩).isSome := by
  induction ts with
  | nil => simp
  | cons t ts ih =>
    intro fuel s last hf hlt
    obtain _ | fuel := fuel
    · omega
    · rw [run]
      split
      · rfl
      · rfl
      · rename_i s' hs
        have hne : t.kind ≠ .finish := fun h => State.feed_finish h negate s s' hs
        have hadv : Cursor.advance ⟨t :: ts, last⟩ = ⟨ts, last⟩ := by
          simp [Cursor.advance, Cursor.atEnd, Cursor.current, hne]
        rw [hadv]
        obtain ⟨u, hu, hk⟩ := hf
        have hmem : u ∈ ts := by
          rcases List.mem_cons.mp hu with rfl | h
          · exact absurd hk hne
          · exact h
        exact ih fuel s' last ⟨u, hmem, hk⟩ (by simp at hlt; omega)

end Parser

/-- **A list that holds an end token has an answer.** -/
theorem parse_isSome {ts : List Token} (h : ∃ t ∈ ts, t.kind = .finish) : (parse ts).isSome :=
  Parser.run_isSome _ ts _ _ _ h (by simp [Parser.fuel]; omega)

end Treewalk
