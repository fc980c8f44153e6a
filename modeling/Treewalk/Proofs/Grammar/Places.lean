import Treewalk.Parse.Program

/-!
# Grammar — Where tokens stand

The parser does not look at spans; it only copies the span of a token that it refuses into the
error.  So a list of tokens has the same tree as every other list with the same kinds, or errors
that tell the same about another place.

* `Parser.State.feed_moved`: a token of the same kind at another place leads to the same state, the
  same tree, or the same error there.
* `parse_moved`: the same of whole lists.
-/

namespace Treewalk

/-- The error, told about another place. -/
def ParseError.moved (span : Span) : ParseError → ParseError
  | unexpected e f _ c => unexpected e f span c
  | noStatement f _ => noStatement f span
  | noExpression f _ c => noExpression f span c

/-- The same tree, or the same error at two places. -/
inductive Moved : Except ParseError Node → Except ParseError Node → Prop where
  | ok (root : Node) : Moved (.ok root) (.ok root)
  | error (e : ParseError) (span : Span) : Moved (.error e) (.error (e.moved span))

namespace Parser

/-! ### One token -/

section Token

variable (k : TokenKind) (a b : Span)

theorem State.demand_moved (m : Mark) (c : Construct) (next : State) :
    State.demand ⟨k, b⟩ m c next = (State.demand ⟨k, a⟩ m c next).mapError (.moved b) := by
  unfold State.demand Token.demand
  cases k.alike (.mark m) <;> rfl

theorem State.feedStatement_moved (s : State) :
    s.feedStatement ⟨k, b⟩ = (s.feedStatement ⟨k, a⟩).mapError (.moved b) := by
  unfold State.feedStatement
  cases k with
  | keyword w => cases w <;> rfl
  | mark m => cases m <;> cases s.outer <;> rfl
  | finish => cases s.outer <;> rfl
  | _ => rfl

theorem State.feedOperand_moved (s : State) (p : Purpose) (ws : List Waiting) :
    s.feedOperand p ws ⟨k, b⟩ = (s.feedOperand p ws ⟨k, a⟩).mapError (.moved b) := by
  unfold State.feedOperand
  cases k with
  | mark m => cases m <;> rfl
  | _ => rfl

theorem State.feedEnd_moved (s : State) (p : Purpose) (e : Node) :
    s.feedEnd p e ⟨k, b⟩ = (s.feedEnd p e ⟨k, a⟩).mapError (.moved b) := by
  cases p <;> exact demand_moved k a b _ _ _

theorem State.feedOperator_moved (negate : Node → Node) (s : State) (p : Purpose)
    (ws : List Waiting) (e : Node) :
    s.feedOperator negate p ws e ⟨k, b⟩ =
      (s.feedOperator negate p ws e ⟨k, a⟩).mapError (.moved b) := by
  unfold State.feedOperator
  cases Operator.ofKind? k with
  | some op => rfl
  | none =>
      obtain ⟨vs, n⟩ := reduce negate 0 ws e
      cases vs with
      | nil => exact feedEnd_moved k a b s p n
      | cons v vs =>
          cases v with
          | paren => exact demand_moved k a b _ _ _
          | negation | operation => exact feedEnd_moved k a b s p n

/-- **A token at another place leads to the same**, or to the same error there. -/
theorem State.feed_moved (negate : Node → Node) (s : State) :
    s.feed negate ⟨k, b⟩ = (s.feed negate ⟨k, a⟩).mapError (.moved b) := by
  obtain ⟨goal, done, outer⟩ := s
  cases goal with
  | statement => exact feedStatement_moved k a b _
  | assignMark | inputEnd | openParen | printEnd | openBrace => exact demand_moved k a b _ _ _
  | inputName => cases k <;> rfl
  | operand p ws => exact feedOperand_moved k a b _ p ws
  | operator p ws e => exact feedOperator_moved k a b negate _ p ws e
  | orElse chain c yes =>
      simp only [State.feed]
      split
      · rfl
      · exact feedStatement_moved k a b _
  | elseBody chain c yes =>
      simp only [State.feed]
      split
      · rfl
      · exact demand_moved k a b _ _ _

end Token

end Parser

/-! ### Whole lists of tokens -/

/-- The cursors show tokens of the same kinds. -/
structure Cursor.Alike (c d : Cursor) : Prop where
  rest : c.rest.map (·.kind) = d.rest.map (·.kind)
  last : c.last.kind = d.last.kind

theorem Cursor.Alike.current {c d : Cursor} (h : c.Alike d) : c.current.kind = d.current.kind := by
  obtain ⟨ts, t⟩ := c
  obtain ⟨us, u⟩ := d
  obtain ⟨hrest, hlast⟩ := h
  cases ts with
  | nil =>
      cases us with
      | nil => exact hlast
      | cons => cases hrest
  | cons =>
      cases us with
      | nil => cases hrest
      | cons => exact (List.cons.inj hrest).1

theorem Cursor.Alike.advance {c d : Cursor} (h : c.Alike d) : c.advance.Alike d.advance := by
  rw [Cursor.advance, Cursor.advance, Cursor.atEnd, Cursor.atEnd, h.current]
  split
  · exact h
  · refine ⟨?_, h.last⟩
    simpa only [List.map_tail] using congrArg List.tail h.rest

theorem Cursor.alike_ofList {ts us : List Token} (h : ts.map (·.kind) = us.map (·.kind)) :
    (ofList ts).Alike (ofList us) := by
  refine ⟨h, ?_⟩
  have hlast : ts.getLast?.map (·.kind) = us.getLast?.map (·.kind) := by
    rw [← List.getLast?_map, h, List.getLast?_map]
  simp only [ofList]
  generalize ts.getLast? = x, us.getLast? = y at hlast
  cases x with
  | none =>
      cases y with
      | none => rfl
      | some => cases hlast
  | some =>
      cases y with
      | none => cases hlast
      | some => exact Option.some.inj hlast

theorem Parser.run_moved (negate : Node → Node) (fuel : Nat) (s : State) {c d : Cursor}
    (h : c.Alike d) : Option.Rel Moved (run negate fuel s c) (run negate fuel s d) := by
  induction fuel generalizing s c d with
  | zero => exact .none
  | succ fuel ih =>
      have hfeed : s.feed negate d.current =
          (s.feed negate c.current).mapError (.moved d.current.span) := by
        have hkind := h.current
        generalize c.current = t, d.current = u at hkind
        obtain ⟨k, a⟩ := t
        obtain ⟨_, b⟩ := u
        cases hkind
        exact s.feed_moved k a b negate
      rw [run, run, hfeed]
      cases s.feed negate c.current with
      | error e => exact .some (.error e _)
      | ok step =>
          cases step with
          | next s' => exact ih s' h.advance
          | accept root => exact .some (.ok root)

/-- **Lists of tokens of the same kinds have the same tree**, or errors that differ in their places
only. -/
theorem parse_moved {ts us : List Token} (h : ts.map (·.kind) = us.map (·.kind)) :
    Option.Rel Moved (parse ts) (parse us) := by
  have hlength : ts.length = us.length := by simpa using congrArg List.length h
  rw [parse, parse, parseWith, parseWith, hlength]
  exact Parser.run_moved _ _ _ (Cursor.alike_ofList h)

end Treewalk
