import Treewalk.Proofs.Grammar.Termination

/-!
# Grammar — No token behind the first end is looked at

A cursor at a list that holds an end token stands before its first end or at it, whatever is done
with it, so that what follows this end shows nowhere.

* `Cursor.perform_snd`: an operation moves the cursor on if it has taken the token, and else leaves
  it where it is.
* `Cursor.Stands.perform`, `Cursor.Stands.after`: what one operation and what any number of them do
  to the place of a cursor.
* `Parser.run_stands`: two cursors that stand at the same place before the same end token lead the
  parser to the same answer.
* `nothing_behind_first_end`: all this of a whole list, and of the list with anything else behind
  its first end.
-/

namespace Treewalk

namespace Cursor

/-! ### Operations -/

/-- What can be done with a cursor. -/
inductive Operation where
  | current
  | check (k : TokenKind)
  | advance
  | eat (k : TokenKind)
  | expect (k : TokenKind) (e : Expectation)
  | expectName
  | unexpected (e : Expectation)
  deriving DecidableEq, Repr

/-- What an operation tells. -/
inductive Answer where
  | token (t : Token)
  | verdict (b : Bool)
  | span (s : Span)
  | name (x : String)
  | error (e : ParseError)
  deriving DecidableEq, Repr

/-- The answer of an operation, and the cursor behind it. -/
def perform (c : Cursor) : Operation → Answer × Cursor
  | .current => (.token c.current, c)
  | .check k => (.verdict (c.check k), c)
  | .advance => (.token c.current, c.advance)
  | .eat k => ((c.eat k).map .verdict id)
  | .expect k e =>
    match c.expect k e with
    | .ok (s, c) => (.span s, c)
    | .error e => (.error e, c)
  | .expectName =>
    match c.expectName with
    | .ok (x, c) => (.name x, c)
    | .error e => (.error e, c)
  | .unexpected e => (.error (c.unexpected e), c)

/-- The cursor behind all the operations. -/
def after (c : Cursor) : List Operation → Cursor
  | [] => c
  | op :: ops => (c.perform op).2.after ops

/-- The operation, with this answer, has taken the token at the cursor. -/
def Operation.takes : Operation → Answer → Bool
  | advance, _ => true
  | eat _, .verdict b => b
  | expect _ _, .span _ => true
  | expectName, .name _ => true
  | _, _ => false

/-- An answer tells about the token at the cursor and about nothing else. -/
theorem perform_fst {c d : Cursor} (h : c.current = d.current) (op : Operation) :
    (c.perform op).1 = (d.perform op).1 := by
  have hcheck : ∀ k, c.check k = d.check k := fun k => by rw [check, check, h]
  cases op with
  | current | advance => exact congrArg Answer.token h
  | check k => exact congrArg Answer.verdict (hcheck k)
  | eat k =>
      simp only [perform, eat, hcheck]
      cases d.check k <;> rfl
  | expect k e =>
      simp only [perform, expect, unexpected, hcheck, h]
      cases d.check k <;> rfl
  | expectName =>
      simp only [perform, expectName, h]
      cases d.current.demandName <;> rfl
  | unexpected e => exact congrArg (fun t => Answer.error (t.unexpected e)) h

/-- The cursor moves on if the operation has taken the token, and else stays where it is. -/
theorem perform_snd (c : Cursor) (op : Operation) :
    (c.perform op).2 = if op.takes (c.perform op).1 then c.advance else c := by
  cases op with
  | current | check | advance | unexpected => rfl
  | eat k => by_cases h : c.check k <;> simp [perform, eat, h, Operation.takes]
  | expect k e => by_cases h : c.check k <;> simp [perform, expect, h, Operation.takes]
  | expectName =>
      cases h : c.current.demandName <;> simp [perform, expectName, h, Except.map, Operation.takes]

/-! ### Places -/

/-- The index of the first end token. -/
def firstEnd (ts : List Token) : Nat := ts.findIdx (·.kind == .finish)

/-- How many tokens of the list lie behind the cursor. -/
def position (ts : List Token) (c : Cursor) : Nat := ts.length - c.rest.length

variable {ts us : List Token} {p : Nat} {c d : Cursor}

theorem firstEnd_lt (h : ∃ t ∈ ts, t.kind = .finish) : firstEnd ts < ts.length :=
  List.findIdx_lt_length.mpr (by simpa using h)

theorem kind_firstEnd {t : Token} (h : ts[firstEnd ts]? = some t) : t.kind = .finish := by
  simpa using List.findIdx_of_getElem?_eq_some h

/-- The list up to its first end, with `rest` behind that. -/
def cut (ts rest : List Token) : List Token := ts.take (firstEnd ts + 1) ++ rest

/-- What follows the first end does not move it. -/
theorem firstEnd_cut (h : firstEnd ts < ts.length) (rest : List Token) :
    firstEnd (cut ts rest) = firstEnd ts := by
  unfold cut firstEnd at *
  rw [List.findIdx_append, List.findIdx_take, List.length_take, if_pos (by omega)]
  omega

theorem firstEnd_cut_lt (h : firstEnd ts < ts.length) (rest : List Token) :
    firstEnd (cut ts rest) < (cut ts rest).length := by
  rw [firstEnd_cut h, cut, List.length_append, List.length_take]
  omega

theorem getElem?_cut (h : firstEnd ts < ts.length) (hp : p ≤ firstEnd ts) (rest : List Token) :
    (cut ts rest)[p]? = ts[p]? := by
  rw [cut, List.getElem?_append_left (by rw [List.length_take]; omega), List.getElem?_take,
    if_pos (by omega)]

/-- The cursor stands at index `p` of the list, at its first end or before. -/
structure Stands (ts : List Token) (p : Nat) (c : Cursor) : Prop where
  rest : c.rest = ts.drop p
  le : p ≤ firstEnd ts
  lt : firstEnd ts < ts.length

theorem stands_ofList (h : firstEnd ts < ts.length) : (ofList ts).Stands ts 0 :=
  ⟨rfl, Nat.zero_le _, h⟩

namespace Stands

theorem position_eq (h : c.Stands ts p) : c.position ts = p := by
  obtain ⟨hrest, hle, hlt⟩ := h
  rw [position, hrest, List.length_drop]
  omega

/-- The token at the cursor is one of the list, and never the one that is shown behind it. -/
theorem getElem?_eq (h : c.Stands ts p) : ts[p]? = some c.current := by
  have hp : p < ts.length := Nat.lt_of_le_of_lt h.le h.lt
  rw [current, h.rest, List.head?_drop, List.getElem?_eq_getElem hp, Option.getD_some]

/-- The cursor moves on by one token, but not from an end. -/
theorem advance (h : c.Stands ts p) :
    c.advance.Stands ts (if c.current.kind = .finish then p else p + 1) := by
  unfold Cursor.advance atEnd
  by_cases hend : c.current.kind = .finish
  · simpa only [hend, beq_self_eq_true, if_true] using h
  · -- The first end has not been reached, since the token there is one.
    have hne : p ≠ firstEnd ts := by
      rintro rfl
      exact hend (kind_firstEnd h.getElem?_eq)
    have hle := h.le
    simp only [beq_iff_eq, hend, if_false]
    refine ⟨?_, by omega, h.lt⟩
    rw [h.rest, List.tail_drop]

/-- **What one operation does to the place of a cursor**: it goes on by one token if the operation
has taken a token that is no end, and else it stays. -/
theorem perform (h : c.Stands ts p) (op : Operation) :
    (c.perform op).2.Stands ts
      (if op.takes (c.perform op).1 = true ∧ c.current.kind ≠ .finish then p + 1 else p) := by
  rw [perform_snd]
  cases op.takes (c.perform op).1 with
  | false => simpa using h
  | true =>
      have hmoved := h.advance
      simp only [true_and, if_true, ne_eq, ite_not]
      exact hmoved

/-- Two cursors at the same place before the same end show the same token. -/
theorem current_eq {rest : List Token} (h : c.Stands ts p) (h' : d.Stands (cut ts rest) p) :
    d.current = c.current := by
  have hc := h.getElem?_eq
  rw [← getElem?_cut h.lt h.le rest, h'.getElem?_eq] at hc
  exact Option.some.inj hc

/-- **What any number of operations do**: two cursors at the same place before the same end are at
the same place again. -/
theorem after {rest : List Token} (h : c.Stands ts p) (h' : d.Stands (cut ts rest) p)
    (ops : List Operation) :
    ∃ q, (c.after ops).Stands ts q ∧ (d.after ops).Stands (cut ts rest) q := by
  induction ops generalizing c d p with
  | nil => exact ⟨p, h, h'⟩
  | cons op ops ih =>
      have hcurrent := h.current_eq h'
      refine ih (h.perform op) ?_
      rw [← perform_fst hcurrent op, ← hcurrent]
      exact h'.perform op

end Stands

end Cursor

open Cursor

/-! ### The parser -/

/-- Two cursors at the same place before the same end lead the parser to the same answer. -/
theorem Parser.run_stands {negate : Node → Node} {ts rest : List Token} {p : Nat} {c d : Cursor}
    (h : c.Stands ts p) (h' : d.Stands (cut ts rest) p) (fuel : Nat) (s : State) :
    run negate fuel s d = run negate fuel s c := by
  induction fuel generalizing c d p s with
  | zero => rfl
  | succ fuel ih =>
      have hcurrent := h.current_eq h'
      have hmoved := h'.advance
      rw [hcurrent] at hmoved
      rw [run, run, hcurrent]
      split
      · rfl
      · rfl
      · exact ih h.advance hmoved _

theorem parse_cut {ts : List Token} (h : firstEnd ts < ts.length) (rest : List Token) :
    parse (cut ts rest) = parse ts := by
  have hstart := stands_ofList h
  have hstart' := stands_ofList (firstEnd_cut_lt h rest)
  refine Option.ext fun r => ?_
  rw [parse_eq_some_iff, parse_eq_some_iff]
  exact exists_congr fun fuel => by rw [Parser.run_stands hstart hstart']

/-- **Nothing behind the first end token is looked at.**  Put anything in the place of what follows
the first end of a list.  After any operations at a cursor, started at the beginning, the next one
gives the same answer on both lists and finds the cursor at the same index, which is that of the
first end at most; the token there is shown, and not the last one of the list in its stead.  The
operation moves the cursor by one if it has taken a token that is no end, and else not at all.  So
the parser has the same answer on both lists. -/
theorem nothing_behind_first_end {ts : List Token} (hend : ∃ t ∈ ts, t.kind = .finish)
    (rest : List Token) :
    (∀ (ops : List Operation) (op : Operation),
      let c := (ofList ts).after ops
      let d := (ofList (cut ts rest)).after ops
      (d.perform op).1 = (c.perform op).1 ∧
      d.position (cut ts rest) = c.position ts ∧
      c.position ts ≤ firstEnd ts ∧
      ts[c.position ts]? = some c.current ∧
      (c.perform op).2.position ts =
        if op.takes (c.perform op).1 = true ∧ c.current.kind ≠ .finish then c.position ts + 1
        else c.position ts) ∧
    ∃ r, parse ts = some r ∧ parse (cut ts rest) = some r := by
  have hlt := firstEnd_lt hend
  constructor
  · intro ops op c d
    obtain ⟨p, hc, hd⟩ := (stands_ofList hlt).after (stands_ofList (firstEnd_cut_lt hlt rest)) ops
    have hposition : c.position ts = p := hc.position_eq
    refine ⟨perform_fst (hc.current_eq hd) op, hd.position_eq.trans hposition.symm, ?_, ?_, ?_⟩
    · rw [hposition]
      exact hc.le
    · rw [hposition]
      exact hc.getElem?_eq
    · rw [hposition]
      exact (hc.perform op).position_eq
  · obtain ⟨r, hr⟩ := Option.isSome_iff_exists.mp (parse_isSome hend)
    exact ⟨r, hr, (parse_cut hlt rest).trans hr⟩

/-- An end in the middle of a list can be taken again and again: the number behind it shows neither
to the cursor nor to the parser. -/
theorem end_in_the_middle :
    let finish : Token := ⟨.finish, ⟨1, 1⟩⟩
    let ts : List Token := [⟨.name "x", ⟨0, 1⟩⟩, finish, ⟨.number 5, ⟨2, 3⟩⟩]
    let us : List Token := [⟨.name "x", ⟨0, 1⟩⟩, finish]
    let ops : List Operation := [.expectName, .eat .finish, .expect .finish .identifier]
    (((ofList us).after ops).perform .advance).1 = .token finish ∧
      ((ofList us).after ops).position us = 1 ∧
      (((ofList ts).after ops).perform .advance).2.position ts = 1 ∧
      parse us =
        some (.error ((finish.unexpected (.kind (.mark .assign))).inside .assignment)) := by
  intro finish ts us ops
  have hend : ∃ t ∈ ts, t.kind = .finish := ⟨finish, by simp [ts], rfl⟩
  obtain ⟨hops, r, hts, hus⟩ := nothing_behind_first_end hend []
  obtain ⟨hanswer, hposition, -, -, hmoved⟩ := hops ops .advance
  exact ⟨hanswer, hposition, hmoved, hus.trans hts.symm⟩

end Treewalk
