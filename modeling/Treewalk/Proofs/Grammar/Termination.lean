import Treewalk.Proofs.Grammar.Refusals

/-!
# Grammar — Lists that the parser answers

Behind a list without an end token the cursor shows the last token again and again, so the tokens
that are left do not bound a run.  What bounds it is the number of open parentheses and blocks
(`State.depth`).  A token that leads on does one of three things (`State.feed_moves`): it calls for
an operand, being a minus sign or an opening parenthesis; it closes a parenthesis or a block; or it
opens one at most, and is refused if it comes again.

* `run_operand_eq_none`: before an operand, minus signs and opening parentheses lead on for ever.
* `run_isSome_nil`: any other token, shown without end, ends every run.
* `parse_eq_some_iff`: the number of tokens that `parse` feeds decides every list.
* `parser_answers`: which lists have an answer, and what it is without an end token.
-/

namespace Treewalk

namespace Parser

variable {negate : Node → Node} {s s' : State} {t : Token}

/-! ### What is open -/

/-- What waits in the expression that the goal belongs to. -/
def Goal.waiting : Goal → List Waiting
  | .operand _ ws | .operator _ ws _ => ws
  | _ => []

/-- How many parentheses and blocks are open. -/
def State.depth (s : State) : Nat := (closing s.goal.waiting).length + s.outer.length

theorem outer_le_depth (s : State) : s.outer.length ≤ s.depth := Nat.le_add_left _ _

theorem depth_eq {ws : List Waiting} (h : s.goal.waiting = ws) :
    s.depth = (closing ws).length + s.outer.length := by
  rw [State.depth, h]

/-- Outside an expression only blocks are open. -/
theorem depth_eq_outer (h : s.goal.waiting = []) : s.depth = s.outer.length :=
  (depth_eq h).trans (Nat.zero_add _)

/-- Applying what waits closes no parenthesis. -/
theorem closing_reduce_fst (level : Nat) (ws : List Waiting) (e : Node) :
    closing (reduce negate level ws e).1 = closing ws := by
  fun_induction reduce negate level ws e with
  | case1 ws e ih => exact ih
  | case2 op l ws e _ ih => exact ih
  | case3 => rfl
  | case4 => rfl

/-! ### Tokens that are refused -/

/-- The token is refused. -/
def Balks (step : Token → Except ParseError Step) (t : Token) : Prop := ∃ e, step t = .error e

theorem balks_demand {m : Mark} (h : t.kind ≠ .mark m) (c : Construct) (s : State) :
    Balks (State.demand · m c s) t := by
  refine ⟨(t.unexpected (.kind (.mark m))).inside c, ?_⟩
  show State.demand t m c s = _
  rw [State.demand, Token.demand, if_neg (mt alike_mark_iff.mp h)]

/-- No statement begins with a mark. -/
theorem balks_statement {m : Mark} (h : t.kind = .mark m) (hm : m ≠ .closeBrace) (s : State) :
    Balks s.feedStatement t := by
  unfold Balks State.feedStatement
  rw [h]
  cases m with
  | closeBrace => exact absurd rfl hm
  | _ => exact ⟨_, rfl⟩

/-- No operand begins with a mark other than a minus sign or an opening parenthesis. -/
theorem balks_operand {m : Mark} (h : t.kind = .mark m) (hm : m ≠ .minus) (hp : m ≠ .openParen)
    (s : State) (p : Purpose) (ws : List Waiting) : Balks (s.feedOperand p ws) t := by
  unfold Balks State.feedOperand
  rw [h]
  cases m with
  | minus => exact absurd rfl hm
  | openParen => exact absurd rfl hp
  | _ => exact ⟨_, rfl⟩

/-- An expression goes on with an operator, or ends before a parenthesis or a semicolon. -/
theorem balks_operator (ho : Operator.ofKind? t.kind = none) (hp : t.kind ≠ .mark .closeParen)
    (hs : t.kind ≠ .mark .semicolon) (s : State) (p : Purpose) (ws : List Waiting) (e : Node) :
    Balks (s.feedOperator negate p ws e) t := by
  simp only [Balks, State.feedOperator, ho]
  split
  · exact balks_demand hp _ _
  · cases p with
    | assign x => exact balks_demand hs _ _
    | print | branch chain | loop => exact balks_demand hp _ _

/-! ### What one token does -/

/-- What a token that leads from `s` to `s'` does. -/
inductive Moves (negate : Node → Node) (s : State) (t : Token) (s' : State) : Prop where
  /-- It stands before an operand, and so may the next one. -/
  | opens {p : Purpose} {ws : List Waiting} : t.kind = .mark .minus ∨ t.kind = .mark .openParen →
      s'.goal = .operand p ws → s'.depth ≤ s.depth + 1 → Moves negate s t s'
  /-- It closes a parenthesis or a block. -/
  | closes : s'.depth < s.depth → Moves negate s t s'
  /-- It is refused if it comes again. -/
  | once : s'.depth ≤ s.depth + 1 → Balks (s'.feed negate) t → Moves negate s t s'

/-- A step that leaves the expression, and does not close a block. -/
theorem Moves.leaving (hw : s'.goal.waiting = []) (ho : s'.outer.length ≤ s.outer.length + 1)
    (hb : Balks (s'.feed negate) t) : Moves negate s t s' := by
  have := outer_le_depth s
  exact .once (by rw [depth_eq_outer hw]; omega) hb

theorem depth_leave (s : State) (b : Body) (before : List Node)
    (outer : List (Body × List Node)) : (s.leave b before outer).depth = outer.length := by
  cases b <;> exact Nat.zero_add _

theorem feedStatement_moves (h : s.feedStatement t = .ok (.next s')) : Moves negate s t s' := by
  unfold State.feedStatement at h
  split at h <;> cases h
  case h_6 hk houter =>
      refine .closes ?_
      have := outer_le_depth s
      rw [depth_leave]
      rw [houter, List.length_cons] at this
      omega
  case h_2 hk =>
      refine .leaving rfl (Nat.le_succ _) ⟨(t.unexpected .identifier).inside .input, ?_⟩
      simp only [State.feed, State.toward, Token.demandName, hk]
  all_goals
    rename_i hk
    exact .leaving rfl (Nat.le_succ _) (balks_demand (by simp [hk]) _ _)

theorem feedEnd_moves {p : Purpose} {e : Node} (h : s.feedEnd p e t = .ok (.next s')) :
    Moves negate s t s' := by
  cases p with
  | assign x =>
      obtain ⟨hk, ⟨⟩⟩ := State.demand_eq_ok h
      exact .leaving rfl (Nat.le_succ _) (balks_statement hk (by decide) _)
  | print | branch chain | loop =>
      obtain ⟨hk, ⟨⟩⟩ := State.demand_eq_ok h
      exact .leaving rfl (Nat.le_succ _) (balks_demand (by simp [hk]) _ _)

theorem feedOperand_moves {p : Purpose} {ws : List Waiting}
    (hg : s.goal.waiting = ws) (h : s.feedOperand p ws t = .ok (.next s')) :
    Moves negate s t s' := by
  unfold State.feedOperand at h
  split at h <;> cases h
  case h_1 hk =>
      refine .opens (.inl hk) rfl ?_
      rw [depth_eq hg]
      exact Nat.le_succ _
  case h_2 hk =>
      refine .opens (.inr hk) rfl ?_
      rw [depth_eq hg]
      simp only [State.depth, State.toward, Goal.waiting, closing, List.length_cons]
      omega
  all_goals
    rename_i hk
    refine .once ?_ (balks_operator ?_ ?_ ?_ _ p ws _)
    · rw [depth_eq hg]
      exact Nat.le_succ _
    · rw [hk]
      rfl
    · simp [hk]
    · simp [hk]

theorem feedOperator_moves {p : Purpose} {ws : List Waiting} {e : Node}
    (hg : s.goal.waiting = ws) (h : s.feedOperator negate p ws e t = .ok (.next s')) :
    Moves negate s t s' := by
  unfold State.feedOperator at h
  split at h
  · next op hop =>
      cases h
      have hk := Operator.ofKind?_eq_some_iff.mp hop
      have hle : State.depth (s.toward (.operand p (.operation op (reduce negate op.level ws e).2 ::
          (reduce negate op.level ws e).1))) ≤ s.depth + 1 := by
        rw [depth_eq hg]
        simp only [State.depth, State.toward, Goal.waiting, closing, closing_reduce_fst]
        exact Nat.le_succ _
      by_cases hsub : op = .sub
      · exact .opens (.inl (by rw [hk, hsub]; rfl)) rfl hle
      · have hm : op.mark ≠ .minus ∧ op.mark ≠ .openParen := by
          cases op <;> simp_all [Operator.mark]
        exact .once hle (balks_operand hk hm.1 hm.2 _ _ _)
  · obtain ⟨e', hred, -⟩ | ⟨ws', e', hred, hc⟩ := closing_reduce negate ws e
    · rw [hred] at h
      exact feedEnd_moves h
    · rw [hred] at h
      obtain ⟨-, ⟨⟩⟩ := State.demand_eq_ok h
      refine .closes ?_
      rw [depth_eq hg, hc]
      simp only [State.depth, State.toward, Goal.waiting, List.length_cons]
      omega

/-- **What a token does that leads on.** -/
theorem State.feed_moves (h : s.feed negate t = .ok (.next s')) : Moves negate s t s' := by
  obtain ⟨g, done, outer⟩ := s
  cases g with
  | statement => exact feedStatement_moves h
  | assignMark x =>
      obtain ⟨hk, ⟨⟩⟩ := State.demand_eq_ok h
      exact .leaving rfl (Nat.le_succ _) (balks_operand hk (by decide) (by decide) _ _ _)
  | inputName =>
      simp only [State.feed, Token.demandName] at h
      split at h
      · next x hx =>
          split at hx <;> cases hx
          next hk =>
            cases h
            exact .leaving rfl (Nat.le_succ _) (balks_demand (by simp [hk]) _ _)
      · cases h
  | inputEnd | printEnd =>
      obtain ⟨hk, ⟨⟩⟩ := State.demand_eq_ok h
      exact .leaving rfl (Nat.le_succ _) (balks_statement hk (by decide) _)
  | openParen p =>
      obtain ⟨hk, ⟨⟩⟩ := State.demand_eq_ok h
      exact .opens (.inr hk) rfl (Nat.le_succ _)
  | operand p ws => exact feedOperand_moves rfl h
  | operator p ws e => exact feedOperator_moves rfl h
  | openBrace b =>
      obtain ⟨hk, ⟨⟩⟩ := State.demand_eq_ok h
      exact .leaving rfl (Nat.le_refl _) (balks_statement hk (by decide) _)
  | orElse chain c yes =>
      simp only [State.feed] at h
      split at h
      · next hk =>
          cases h
          refine .leaving rfl (Nat.le_succ _) ?_
          unfold Balks
          simp only [State.feed, State.toward]
          rw [if_neg (by simp [hk])]
          exact balks_demand (by simp [hk]) _ _
      · -- The statement has been complete, with the same blocks open.
        have hm : Moves negate (State.finish ⟨.orElse chain c yes, done, outer⟩ _) t s' :=
          feedStatement_moves h
        cases hm with
        | opens hk hg hd => exact .opens hk hg hd
        | closes hd => exact .closes hd
        | once hd hb => exact .once hd hb
  | elseBody chain c yes =>
      simp only [State.feed] at h
      split at h
      · next hk =>
          cases h
          exact .leaving rfl (Nat.le_succ _) (balks_demand (by simp [hk]) _ _)
      · obtain ⟨hk, ⟨⟩⟩ := State.demand_eq_ok h
        exact .leaving rfl (Nat.le_refl _) (balks_statement hk (by decide) _)

theorem Moves.depth_le (h : Moves negate s t s') : s'.depth ≤ s.depth + 1 := by
  cases h with
  | opens _ _ hd => exact hd
  | closes hd => omega
  | once hd _ => exact hd

/-- Only an end token completes a program. -/
theorem State.finish_of_accept {root : Node} (h : s.feed negate t = .ok (.accept root)) :
    t.kind = .finish := by
  have hstatement : ∀ {s : State}, s.feedStatement t = .ok (.accept root) → t.kind = .finish := by
    intro s h
    unfold State.feedStatement at h
    split at h <;> cases h
    next hk _ => exact hk
  have hdemand : ∀ {m : Mark} {c : Construct} {s : State},
      State.demand t m c s ≠ .ok (.accept root) := fun h => nomatch (State.demand_eq_ok h).2
  obtain ⟨g, done, outer⟩ := s
  cases g with
  | statement => exact hstatement h
  | assignMark | inputEnd | openParen | printEnd | openBrace => exact absurd h hdemand
  | inputName =>
      simp only [State.feed] at h
      split at h <;> cases h
  | operand p ws =>
      simp only [State.feed, State.feedOperand] at h
      split at h <;> cases h
  | operator p ws e =>
      simp only [State.feed, State.feedOperator] at h
      split at h
      · cases h
      · split at h
        · exact absurd h hdemand
        · cases p <;> exact absurd h hdemand
  | orElse chain c yes =>
      simp only [State.feed] at h
      split at h
      · cases h
      · exact hstatement h
  | elseBody chain c yes =>
      simp only [State.feed] at h
      split at h
      · cases h
      · exact absurd h hdemand

/-! ### Behind the last token -/

theorem current_nil (last : Token) : Cursor.current ⟨[], last⟩ = last := rfl

theorem advance_nil (last : Token) : Cursor.advance ⟨[], last⟩ = ⟨[], last⟩ := by
  unfold Cursor.advance
  split <;> rfl

/-- Before an operand, minus signs and opening parentheses lead on for ever. -/
theorem run_operand_eq_none (ht : t.kind = .mark .minus ∨ t.kind = .mark .openParen)
    (fuel : Nat) : ∀ {s : State} {p : Purpose} {ws : List Waiting}, s.goal = .operand p ws →
      run negate fuel s ⟨[], t⟩ = none := by
  induction fuel with
  | zero => exact fun _ => rfl
  | succ fuel ih =>
      rintro ⟨g, done, outer⟩ p ws ⟨⟩
      rw [run, current_nil, advance_nil]
      simp only [State.feed, State.feedOperand]
      rcases ht with hk | hk
      · rw [hk]
        exact ih rfl
      · rw [hk]
        exact ih rfl

/-- Some number of tokens of the cursor leads to an answer. -/
def Answers (negate : Node → Node) (s : State) (c : Cursor) : Prop :=
  ∃ fuel r, run negate fuel s c = some r

theorem Answers.next {c : Cursor} (h : Answers negate s c)
    (hs : s.feed negate c.current = .ok (.next s')) : Answers negate s' c.advance := by
  obtain ⟨_ | fuel, r, hr⟩ := h
  · cases hr
  · rw [run, hs] at hr
    exact ⟨fuel, r, hr⟩

/-- The token, shown without end, leaves no run without an answer. -/
def Decides (t : Token) : Prop := t.kind ≠ .mark .minus ∧ t.kind ≠ .mark .openParen

/-- Behind the last token an answer comes within two tokens more than there are things open, if it
comes at all: the token closes them one by one, and is refused the second time at the latest. -/
theorem run_isSome_nil : ∀ {fuel : Nat} {s : State},
    Decides t ∨ Answers negate s ⟨[], t⟩ → s.depth + 2 ≤ fuel →
      (run negate fuel s ⟨[], t⟩).isSome := by
  intro fuel
  induction fuel with
  | zero => exact fun _ hle => absurd hle (by omega)
  | succ fuel ih =>
      intro s h hle
      rw [run, current_nil]
      split
      · rfl
      · rfl
      · next s' hs =>
          have h' : Decides t ∨ Answers negate s' ⟨[], t⟩ :=
            h.imp_right fun ha => advance_nil t ▸ ha.next hs
          rw [advance_nil]
          cases State.feed_moves hs with
          | opens hk hg _ =>
              rcases h' with hd | ⟨fuel', r, hr⟩
              · exact absurd hk (not_or.mpr hd)
              · rw [run_operand_eq_none hk fuel' hg] at hr
                cases hr
          | closes hd => exact ih h' (by omega)
          | once _ hb =>
              obtain ⟨e, he⟩ := hb
              obtain ⟨fuel, rfl⟩ : ∃ k, fuel = k + 1 := ⟨fuel - 1, by omega⟩
              rw [run, current_nil, he]
              rfl

/-! ### Whole lists -/

/-- The tokens of a list, and as many more as are open behind them, decide it. -/
theorem run_isSome_of_decided {last : Token} (ts : List Token) : ∀ {fuel : Nat} {s : State},
    Decides last ∨ Answers negate s ⟨ts, last⟩ → 2 * ts.length + s.depth + 2 ≤ fuel →
      (run negate fuel s ⟨ts, last⟩).isSome := by
  induction ts with
  | nil => exact fun h hle => run_isSome_nil h (by simpa using hle)
  | cons t ts ih =>
      intro fuel s h hle
      rw [List.length_cons] at hle
      obtain ⟨fuel, rfl⟩ : ∃ k, fuel = k + 1 := ⟨fuel - 1, by omega⟩
      rw [run, current_cons]
      split
      · rfl
      · rfl
      · next s' hs =>
          have hne : t.kind ≠ .finish := fun hk => State.feed_finish hk _ _ _ hs
          have hdepth := (State.feed_moves hs).depth_le
          rw [advance_cons hne]
          exact ih (h.imp_right fun ha => advance_cons hne ts last ▸ ha.next hs) (by omega)

/-- More tokens do not change an answer. -/
theorem run_mono {fuel fuel' : Nat} {c : Cursor} {r : Except ParseError Node}
    (h : run negate fuel s c = some r) (hle : fuel ≤ fuel') : run negate fuel' s c = some r := by
  induction fuel generalizing fuel' s c with
  | zero => cases h
  | succ fuel ih =>
      obtain ⟨fuel', rfl⟩ : ∃ k, fuel' = k + 1 := ⟨fuel' - 1, by omega⟩
      rw [run] at h ⊢
      split at h
      · exact h
      · exact h
      · exact ih h (by omega)

/-- Where no end token is shown, every answer is an error. -/
theorem run_eq_error {fuel : Nat} {c : Cursor} {r : Except ParseError Node}
    (hrest : ∀ t ∈ c.rest, t.kind ≠ .finish) (hlast : c.last.kind ≠ .finish)
    (h : run negate fuel s c = some r) : ∃ e, r = .error e := by
  induction fuel generalizing s c with
  | zero => cases h
  | succ fuel ih =>
      have hcurrent : c.current.kind ≠ .finish := by
        obtain ⟨_ | ⟨t, ts⟩, last⟩ := c
        · exact hlast
        · exact hrest t List.mem_cons_self
      rw [run] at h
      split at h
      · next e _ => exact ⟨e, (Option.some.inj h).symm⟩
      · next root hs => exact absurd (State.finish_of_accept hs) hcurrent
      · refine ih (c := c.advance) ?_ ?_ h
        · unfold Cursor.advance
          split
          · exact hrest
          · exact fun t ht => hrest t (List.mem_of_mem_tail ht)
        · unfold Cursor.advance
          split <;> exact hlast

end Parser

open Treewalk.Parser

/-- A list whose last token decides has an answer. -/
theorem parse_isSome_of_decided {ts : List Token}
    (h : Decides (ts.getLast?.getD .nothing) ∨ Answers Node.negate .start (.ofList ts)) :
    (parse ts).isSome :=
  run_isSome_of_decided ts h (Nat.le_refl _)

/-- **The tokens that `parse` feeds at most are enough**: it has the answer that any number of
tokens leads to. -/
theorem parse_eq_some_iff {ts : List Token} {r : Except ParseError Node} :
    parse ts = some r ↔ ∃ fuel, Parser.run Node.negate fuel .start (.ofList ts) = some r := by
  constructor
  · exact fun h => ⟨_, h⟩
  · rintro ⟨fuel, h⟩
    obtain ⟨r', hr'⟩ := Option.isSome_iff_exists.mp (parse_isSome_of_decided (.inr ⟨fuel, r, h⟩))
    have hmore := run_mono hr' (Nat.le_max_left (Parser.fuel ts.length) fuel)
    rw [run_mono h (Nat.le_max_right (Parser.fuel ts.length) fuel)] at hmore
    rw [hr', hmore]

/-- A list that holds tokens, but no end token, is no program. -/
theorem parse_eq_error {ts : List Token} (hne : ts ≠ []) (h : ∀ t ∈ ts, t.kind ≠ .finish)
    {r : Except ParseError Node} (hr : parse ts = some r) : ∃ e, r = .error e := by
  refine run_eq_error (c := .ofList ts) h ?_ hr
  rw [Cursor.ofList, List.getLast?_eq_some_getLast hne]
  exact h _ (List.getLast_mem hne)

/-- **The parser answers**, with a tree or an error, every list that is empty, that holds an end
token, or whose last token is neither a minus sign nor an opening parenthesis.  Its answer is the
one that some number of tokens leads to, so that without one no number of tokens does.  A list that
is not empty and holds no end token has no other answer than an error. -/
theorem parser_answers (ts : List Token) :
    (ts = [] ∨ (∃ t ∈ ts, t.kind = .finish) ∨
        (∃ t, ts.getLast? = some t ∧ t.kind ≠ .mark .minus ∧ t.kind ≠ .mark .openParen) →
      ∃ r, parse ts = some r) ∧
    (∀ r, parse ts = some r ↔
      ∃ fuel, Parser.run Node.negate fuel .start (.ofList ts) = some r) ∧
    (ts ≠ [] → (∀ t ∈ ts, t.kind ≠ .finish) → ∀ r, parse ts = some r → ∃ e, r = .error e) := by
  refine ⟨fun h => Option.isSome_iff_exists.mp ?_, fun r => parse_eq_some_iff,
    fun hne h r => parse_eq_error hne h⟩
  rcases h with rfl | hfin | ⟨t, ht, hdecides⟩
  · rfl
  · exact parse_isSome hfin
  · refine parse_isSome_of_decided (.inl ?_)
    rw [ht]
    exact hdecides

/-- `while (((1)` has no end: its last token closes both inner parentheses and the condition, and is
refused where a block must begin. -/
theorem last_parenthesis_closes_condition :
    let last : Token := ⟨.mark .closeParen, ⟨10, 11⟩⟩
    let ts : List Token := [⟨.keyword .loop, ⟨0, 5⟩⟩, ⟨.mark .openParen, ⟨6, 7⟩⟩,
      ⟨.mark .openParen, ⟨7, 8⟩⟩, ⟨.mark .openParen, ⟨8, 9⟩⟩, ⟨.number 1, ⟨9, 10⟩⟩, last]
    (∃ fuel, Parser.run Node.negate fuel .start (.ofList ts) =
        some (.error ((last.unexpected (.kind (.mark .openBrace))).inside .loop))) ∧
      ∃ e, parse ts = some (.error e) := by
  intro last ts
  obtain ⟨hanswer, hfuel, herror⟩ := parser_answers ts
  obtain ⟨r, hr⟩ := hanswer (.inr (.inr ⟨last, rfl, by decide, by decide⟩))
  obtain ⟨e, rfl⟩ := herror (by decide) (by decide) r hr
  exact ⟨(hfuel _).mp rfl, e, hr⟩

/-- Behind `x = -` the minus sign is shown without end, and never refused. -/
example : parse [⟨.name "x", ⟨0, 1⟩⟩, ⟨.mark .assign, ⟨2, 3⟩⟩, ⟨.mark .minus, ⟨4, 5⟩⟩] = none :=
  rfl

end Treewalk
