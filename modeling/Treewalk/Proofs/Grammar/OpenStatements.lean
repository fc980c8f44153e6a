import Treewalk.Proofs.Grammar.Beginnings

/-!
# Grammar — The statement that is open

What an error says about the place where a program breaks off.  Between two statements a token is
refused because it begins none, or because the program ends inside a block; inside a statement every
error is about that statement.

* `State.error_inside`, `State.error_between`: the errors of one token, by the goal.
* `noStatement_iff`, `unclosed_iff`, `exists_innermost`: the same behind tokens that the parser
  takes, told by the grammar.
* `error_tells_innermost_statement`: the error of a list of tokens tells the innermost statement
  that is open at the token that is refused.
-/

namespace Treewalk

namespace Grammar

/-- The kind is refused where a statement may begin: it neither begins one, nor closes a block, nor
ends the program. -/
def BeginsNothing (behind : List TokenKind) (found : TokenKind) : Prop :=
  ∃ depth, Boundary depth behind ∧ found ≠ .finish ∧ begins? found = none ∧
    ¬ (found = .mark .closeBrace ∧ 0 < depth)

/-- The program ends inside a block, where a statement may begin. -/
def EndsInBlock (behind : List TokenKind) (found : TokenKind) : Prop :=
  ∃ depth, Boundary depth behind ∧ 0 < depth ∧ found = .finish

end Grammar

namespace Parser
open Grammar

variable {negate : Node → Node} {s s' : State} {t : Token} {c : Construct}

/-! ### Errors -/

theorem Goal.construct?_ne_block (g : Goal) : g.construct? ≠ some .block := by
  cases g with
  | openParen p | operand p | operator p => cases p <;> simp [construct?, Purpose.construct]
  | openBrace b => cases b <;> simp [construct?, Body.construct]
  | _ => simp [construct?]

/-- The error is about another token or about an expression, inside construct `c`. -/
def Within (c : Construct) (e : ParseError) : Prop :=
  (∃ x found span, e = .unexpected x found span (some c)) ∨
    ∃ found span, e = .noExpression found span (some c)

theorem within_demand {m : Mark} {e : ParseError} (h : State.demand t m c s = .error e) :
    Within c e := by
  unfold State.demand at h
  split at h
  · cases h
  · next e' he =>
      cases h
      unfold Token.demand at he
      split at he <;> cases he
      exact .inl ⟨_, _, _, rfl⟩

/-- Inside a statement, an error is about that statement. -/
theorem State.error_inside (hc : s.goal.construct? = some c) {e : ParseError}
    (h : s.feed negate t = .error e) : Within c e := by
  obtain ⟨g, done, outer⟩ := s
  cases g with
  | statement | orElse => cases hc
  | assignMark | inputEnd | openParen | printEnd | openBrace =>
      cases hc
      exact within_demand h
  | inputName =>
      cases hc
      simp only [State.feed, Token.demandName] at h
      split at h
      · cases h
      · next e' he =>
          cases h
          split at he <;> cases he
          exact .inl ⟨_, _, _, rfl⟩
  | operand p ws =>
      cases hc
      simp only [State.feed, State.feedOperand] at h
      split at h <;> cases h
      exact .inr ⟨_, _, rfl⟩
  | operator p ws e =>
      cases hc
      simp only [State.feed, State.feedOperator] at h
      split at h
      · cases h
      · split at h
        · exact within_demand h
        · cases p <;> exact within_demand h
  | elseBody chain cond yes =>
      cases hc
      simp only [State.feed] at h
      split at h
      · cases h
      · exact within_demand h

/-- Where a statement may begin, a token is refused because it begins none, or because it ends the
program inside a block. -/
inductive RefusedBetween (depth : Nat) (t : Token) : ParseError → Prop where
  | noStatement : t.kind ≠ .finish → begins? t.kind = none →
      ¬ (t.kind = .mark .closeBrace ∧ 0 < depth) →
      RefusedBetween depth t (.noStatement t.kind.description t.span)
  | unclosed : t.kind = .finish → 0 < depth →
      RefusedBetween depth t
        (.unexpected (.kind (.mark .closeBrace)) t.kind.description t.span (some .block))

theorem State.feedStatement_refused {e : ParseError} (h : s.feedStatement t = .error e) :
    RefusedBetween s.outer.length t e := by
  unfold State.feedStatement at h
  split at h
  case h_8 b outer hk houter =>
      cases h
      exact .unclosed hk (by simp [houter])
  case h_9 k outer hname hinput hprint hbranch hloop hclose htop hfinish =>
      cases h
      have hend : t.kind ≠ .finish := fun hk => by
        cases ho : s.outer with
        | nil => exact htop hk ho
        | cons b outer => exact hfinish b outer hk ho
      have hbegin : begins? t.kind = none := by
        unfold begins?
        split
        · next x hk => exact absurd hk (hname x)
        · next hk => exact absurd hk hinput
        · next hk => exact absurd hk hprint
        · next hk => exact absurd hk hbranch
        · next hk => exact absurd hk hloop
        · rfl
      refine .noStatement hend hbegin fun ⟨hk, hd⟩ => ?_
      obtain ⟨⟨b, before⟩, outer, ho⟩ := List.exists_cons_of_length_pos hd
      exact hclose b before outer hk ho
  all_goals cases h

theorem State.error_between (hc : s.goal.construct? = none) {e : ParseError}
    (h : s.feed negate t = .error e) : RefusedBetween s.outer.length t e := by
  obtain ⟨g, done, outer⟩ := s
  cases g with
  | statement => exact feedStatement_refused h
  | orElse chain cond yes =>
      simp only [State.feed] at h
      split at h
      · cases h
      · -- The statement before has been complete, inside the same blocks.
        exact feedStatement_refused (s := State.finish ⟨.orElse chain cond yes, done, outer⟩ _) h
  | _ => cases hc

/-! ### What is refused behind tokens -/

section Behind

variable {us : List Token} (h : Passes Node.negate .start us s)
include h

/-- A statement was called for exactly if one may begin and the token is of no use. -/
theorem noStatement_iff {e : ParseError} (he : s.feed Node.negate t = .error e) :
    (∃ f span, e = .noStatement f span) ↔ BeginsNothing (us.map (·.kind)) t.kind := by
  constructor
  · rintro ⟨f, span, rfl⟩
    cases hc : s.goal.construct? with
    | none =>
        cases State.error_between hc he with
        | noStatement hend hbegin hclose =>
            exact ⟨_, (boundary_iff h).mpr ⟨hc, rfl⟩, hend, hbegin, hclose⟩
    | some c =>
        rcases State.error_inside hc he with ⟨_, _, _, heq⟩ | ⟨_, _, heq⟩ <;> cases heq
  · rintro ⟨depth, hb, hend, -⟩
    obtain ⟨hc, rfl⟩ := (boundary_iff h).mp hb
    cases State.error_between hc he with
    | noStatement => exact ⟨_, _, rfl⟩
    | unclosed hk => exact absurd hk hend

/-- A block was not closed exactly if the program ends inside one, between two statements. -/
theorem unclosed_iff {e : ParseError} (he : s.feed Node.negate t = .error e) :
    (∃ f span, e = .unexpected (.kind (.mark .closeBrace)) f span (some .block)) ↔
      EndsInBlock (us.map (·.kind)) t.kind := by
  constructor
  · rintro ⟨f, span, rfl⟩
    cases hc : s.goal.construct? with
    | none =>
        cases State.error_between hc he with
        | unclosed hend hdepth => exact ⟨_, (boundary_iff h).mpr ⟨hc, rfl⟩, hdepth, hend⟩
    | some c =>
        rcases State.error_inside hc he with ⟨_, _, _, heq⟩ | ⟨_, _, heq⟩
        · cases heq
          exact absurd hc (Goal.construct?_ne_block _)
        · cases heq
  · rintro ⟨depth, hb, -, hend⟩
    obtain ⟨hc, rfl⟩ := (boundary_iff h).mp hb
    cases State.error_between hc he with
    | noStatement hne => exact absurd hend hne
    | unclosed => exact ⟨_, _, rfl⟩

/-- Every other error is about the innermost statement that is open. -/
theorem exists_innermost {e : ParseError} (he : s.feed Node.negate t = .error e)
    (hn : ¬ BeginsNothing (us.map (·.kind)) t.kind) (hu : ¬ EndsInBlock (us.map (·.kind)) t.kind) :
    ∃ c, Within c e ∧ c ≠ .block ∧ Innermost c (us.map (·.kind)) ∧
      ∀ c', Innermost c' (us.map (·.kind)) → c' = c := by
  cases hc : s.goal.construct? with
  | none =>
      cases State.error_between hc he with
      | noStatement => exact absurd ((noStatement_iff h he).mp ⟨_, _, rfl⟩) hn
      | unclosed => exact absurd ((unclosed_iff h he).mp ⟨_, _, rfl⟩) hu
  | some c =>
      refine ⟨c, State.error_inside hc he, ?_, (innermost_iff h).mpr hc, fun c' hc' => ?_⟩
      · rintro rfl
        exact Goal.construct?_ne_block _ hc
      · exact Option.some.inj (((innermost_iff h).mp hc').symm.trans hc)

/-- No program goes on with a token that is refused. -/
theorem parse_ne_ok {e : ParseError} (he : s.feed Node.negate t = .error e) (vs : List Token)
    (root : Node) : parse (us ++ t :: vs) ≠ some (.ok root) := by
  obtain ⟨fuel, last, hrun⟩ := parse_passes h t vs
  rw [hrun, Parser.run, current_cons, he]
  intro heq
  cases heq

end Behind

end Parser

open Grammar Treewalk.Parser

/-- **An error tells the innermost statement that is open.**  The error of a list that holds an end
token is about the first token that no program goes on with.  It is that a statement was called for
exactly if one may begin there and the token is of no use; it is that a block was not closed exactly
if the program ends inside one, between two statements.  Every other error tells the construct of
the innermost statement that has begun and is not complete, and there is only one such. -/
theorem error_tells_innermost_statement {ts : List Token} (h : ∃ t ∈ ts, t.kind = .finish)
    {e : ParseError} (he : parse ts = some (.error e)) :
    ∃ (k : Nat) (hk : k < ts.length),
      let behind := (ts.take k).map (·.kind)
      let found := ts[k].kind
      (∃ vs root, parse (ts.take k ++ vs) = some (.ok root)) ∧
      (∀ vs root, parse (ts.take (k + 1) ++ vs) ≠ some (.ok root)) ∧
      e.span = ts[k].span ∧ e.found = found.description ∧
      ((∃ f span, e = .noStatement f span) ↔ BeginsNothing behind found) ∧
      ((∃ f span, e = .unexpected (.kind (.mark .closeBrace)) f span (some .block)) ↔
        EndsInBlock behind found) ∧
      (¬ BeginsNothing behind found → ¬ EndsInBlock behind found →
        ∃ c, Within c e ∧ c ≠ .block ∧ Innermost c behind ∧
          ∀ c', Innermost c' behind → c' = c) := by
  obtain ⟨us, t, vs, s, rfl, hpass, hfeed⟩ := exists_refused h he
  obtain ⟨hspan, hfound, -⟩ := State.refuses hfeed
  have htake : (us ++ t :: vs).take (us.length + 1) = us ++ [t] := List.take_length_add_append 1
  have hlt : us.length < (us ++ t :: vs).length := by simp
  have hget : (us ++ t :: vs)[us.length] = t := by simp
  refine ⟨us.length, hlt, ?_⟩
  rw [hget, htake, List.take_left]
  refine ⟨exists_parse_of_passes hpass, fun ws root => ?_, hspan, hfound,
    noStatement_iff hpass hfeed, unclosed_iff hpass hfeed, exists_innermost hpass hfeed⟩
  rw [List.append_assoc]
  exact parse_ne_ok hpass hfeed ws root

/-- `if (x) { } else { print (;` is refused at its semicolon, which calls for an expression in the
`print` statement, and not in the `if` statement around it. -/
theorem misfit_in_else_block :
    let ts : List Token := [⟨.keyword .branch, ⟨0, 2⟩⟩, ⟨.mark .openParen, ⟨3, 4⟩⟩,
      ⟨.name "x", ⟨4, 5⟩⟩, ⟨.mark .closeParen, ⟨5, 6⟩⟩, ⟨.mark .openBrace, ⟨7, 8⟩⟩,
      ⟨.mark .closeBrace, ⟨9, 10⟩⟩, ⟨.keyword .otherwise, ⟨11, 15⟩⟩, ⟨.mark .openBrace, ⟨16, 17⟩⟩,
      ⟨.keyword .print, ⟨18, 23⟩⟩, ⟨.mark .openParen, ⟨24, 25⟩⟩, ⟨.mark .semicolon, ⟨25, 26⟩⟩,
      ⟨.finish, ⟨26, 26⟩⟩]
    parse ts = some (.error (.noExpression "`;`" ⟨25, 26⟩ (some .print))) ∧
      Innermost .print ((ts.take 10).map (·.kind)) ∧
      ∀ c, Innermost c ((ts.take 10).map (·.kind)) → c = .print := by
  intro ts
  have he : parse ts = some (.error (.noExpression "`;`" ⟨25, 26⟩ (some .print))) := by rfl
  have hfin : ∃ t ∈ ts, t.kind = .finish := ⟨⟨.finish, ⟨26, 26⟩⟩, by decide, rfl⟩
  obtain ⟨k, hk, -, -, hspan, -, hnone, hunclosed, hinner⟩ :=
    error_tells_innermost_statement hfin he
  -- No other token has this span.
  have hplace : ∀ i (hi : i < ts.length), (⟨25, 26⟩ : Span) = ts[i].span → i = 10 := by decide
  obtain rfl := hplace k hk hspan
  obtain ⟨c, hwithin, -, hin, hunique⟩ := hinner
    (fun hb => by obtain ⟨_, _, heq⟩ := hnone.mpr hb; cases heq)
    (fun hb => by obtain ⟨_, _, heq⟩ := hunclosed.mpr hb; cases heq)
  obtain rfl : c = .print := by
    rcases hwithin with ⟨_, _, _, heq⟩ | ⟨_, _, heq⟩ <;> cases heq
    rfl
  exact ⟨he, hin, hunique⟩

end Treewalk
