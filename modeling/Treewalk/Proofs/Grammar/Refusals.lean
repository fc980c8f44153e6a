import Treewalk.Proofs.Grammar.Completeness

/-!
# Grammar — What the parser refuses

The parser stops at the first token that no program goes on with.  The tokens before it are the
beginning of some program, and an error that tells what was called for tells the truth: with that
in the place of the token, the beginning of some program still stands there.

* `State.completion`: a way to complete the program from every state, and `feeds_completion`, that
  it is one.
* `Refuses`: what an error says about its token.  No state refuses a token with an error that says
  anything else (`State.refuses`).
* `parse_error_at_first_misfit`: the two together, for whole lists of tokens.
-/

namespace Treewalk

/-- The kind is one that the expectation speaks of. -/
def Expectation.Names : Expectation → TokenKind → Prop
  | .kind k, l => l.alike k = true
  | .identifier, l => ∃ x, l = .name x
  | .phrase _, _ => False

namespace Parser

/-! ### Completing a program -/

/-- The closing parentheses of what waits. -/
def closing : List Waiting → List TokenKind
  | [] => []
  | .paren :: ws => .mark .closeParen :: closing ws
  | _ :: ws => closing ws

/-- What completes a statement behind an expression for this purpose. -/
def Purpose.completion : Purpose → List TokenKind
  | .assign _ => [.mark .semicolon]
  | .print => [.mark .closeParen, .mark .semicolon]
  | .branch _ | .loop => [.mark .closeParen, .mark .openBrace, .mark .closeBrace]

/-- What completes the statement that the goal belongs to. -/
def Goal.completion : Goal → List TokenKind
  | .statement | .orElse _ _ _ => []
  | .assignMark _ => [.mark .assign, .number 0, .mark .semicolon]
  | .inputName => [.name "x", .mark .semicolon]
  | .inputEnd _ | .printEnd _ => [.mark .semicolon]
  | .openParen p => .mark .openParen :: .number 0 :: p.completion
  | .operand p ws => .number 0 :: (closing ws ++ p.completion)
  | .operator p ws _ => closing ws ++ p.completion
  | .openBrace _ | .elseBody _ _ _ => [.mark .openBrace, .mark .closeBrace]

/-- What completes the program: the statement that has begun, and the blocks that are open. -/
def State.completion (s : State) : List TokenKind :=
  s.goal.completion ++ s.outer.map fun _ => .mark .closeBrace

/-- The kinds lead to a place where a statement may begin, inside the same blocks. -/
def Settled (s : State) (ks : List TokenKind) : Prop :=
  ∃ s' done, Feeds s ks s' ∧ Like s' ⟨.statement, done, s.outer⟩

theorem Settled.cons {s s₁ : State} {k : TokenKind} {ks : List TokenKind} (h : Settled s₁ ks)
    (ho : s₁.outer = s.outer)
    (hk : ∀ t : Token, t.kind = k → s.feed Node.negate t = .ok (.next s₁)) :
    Settled s (k :: ks) := by
  obtain ⟨s', done, hf, hl⟩ := h
  exact ⟨s', done, .cons hk hf, ho ▸ hl⟩

/-- A mark that is called for is taken. -/
theorem Settled.demand {s s₁ : State} {m : Mark} {c : Construct} {ks : List TokenKind}
    (h : Settled s₁ ks) (ho : s₁.outer = s.outer)
    (hk : ∀ t : Token, t.kind = .mark m → s.feed Node.negate t = State.demand t m c s₁) :
    Settled s (.mark m :: ks) :=
  h.cons ho fun t ht => (hk t ht).trans (State.demand_ok ht c s₁)

theorem settled_statement (done : List Node) (outer : List (Body × List Node)) :
    Settled ⟨.statement, done, outer⟩ [] :=
  ⟨_, done, .nil, .refl _⟩

/-- Behind an `if` without `else` a statement may begin. -/
theorem like_orElse (chain : Chain) (c : Node) (yes done : List Node)
    (outer : List (Body × List Node)) :
    Like ⟨.orElse chain c yes, done, outer⟩
      ⟨.statement, chain.close (.branch c yes []) :: done, outer⟩ := by
  intro t ht
  simp only [State.feed, if_neg ht]
  rfl

/-- Where a block closes, a statement may begin outside it. -/
theorem like_leave (g : Goal) (done : List Node) (b : Body) (before : List Node)
    (outer : List (Body × List Node)) :
    ∃ done', Like (State.leave ⟨g, done, (b, before) :: outer⟩ b before outer)
      ⟨.statement, done', outer⟩ := by
  cases b with
  | yes chain c => exact ⟨_, like_orElse _ _ _ _ _⟩
  | no chain c yes => exact ⟨_, .refl _⟩
  | loop c => exact ⟨_, .refl _⟩

/-- A block without statements is complete. -/
theorem settled_block {s : State} (b : Body)
    (h : ∀ t : Token, t.kind = .mark .openBrace →
      s.feed Node.negate t = .ok (.next (s.enter b))) :
    Settled s [.mark .openBrace, .mark .closeBrace] := by
  obtain ⟨done, hl⟩ := like_leave .statement [] b s.done s.outer
  refine ⟨_, done, .cons h (.one fun t ht => ?_), hl⟩
  simp only [State.feed, State.enter, State.feedStatement, ht]

/-- A whole expression is completed as its purpose calls for. -/
theorem settled_purpose {s : State} (p : Purpose) (e : Node)
    (h : ∀ t : Token, Operator.ofKind? t.kind = none →
      s.feed Node.negate t = State.feedEnd s p e t) : Settled s p.completion := by
  obtain ⟨g, done, outer⟩ := s
  cases p with
  | assign x => exact (settled_statement _ _).demand rfl fun t ht => h t (by rw [ht]; rfl)
  | print =>
      have hend : Settled ⟨.printEnd e, done, outer⟩ [.mark .semicolon] :=
        (settled_statement _ _).demand rfl fun t _ => rfl
      exact hend.demand rfl fun t ht => h t (by rw [ht]; rfl)
  | branch chain =>
      have hbody : Settled ⟨.openBrace (.yes chain e), done, outer⟩ _ :=
        settled_block (.yes chain e) fun t ht => State.demand_ok ht _ _
      exact hbody.demand rfl fun t ht => h t (by rw [ht]; rfl)
  | loop =>
      have hbody : Settled ⟨.openBrace (.loop e), done, outer⟩ _ :=
        settled_block (.loop e) fun t ht => State.demand_ok ht _ _
      exact hbody.demand rfl fun t ht => h t (by rw [ht]; rfl)

/-- All that waits is applied up to the innermost parenthesis, and that one is closed first. -/
theorem closing_reduce (negate : Node → Node) (ws : List Waiting) (e : Node) :
    (∃ e', reduce negate 0 ws e = ([], e') ∧ closing ws = []) ∨
      ∃ ws' e', reduce negate 0 ws e = (.paren :: ws', e') ∧
        closing ws = .mark .closeParen :: closing ws' := by
  fun_induction reduce negate 0 ws e with
  | case1 ws e ih => exact ih
  | case2 op l ws e _ ih => exact ih
  | case3 op l ws e hl => exact absurd (Nat.zero_le _) hl
  | case4 ws e hn ho =>
      match ws with
      | [] => exact .inl ⟨e, rfl, rfl⟩
      | .paren :: ws => exact .inr ⟨ws, e, rfl, rfl⟩
      | .negation :: ws => exact absurd rfl (hn ws)
      | .operation op l :: ws => exact absurd rfl (ho op l ws)

/-- Behind an operand, the open parentheses are closed from the inside out. -/
theorem settled_operator (p : Purpose) (done : List Node) (outer : List (Body × List Node))
    (ws : List Waiting) (e : Node) :
    Settled ⟨.operator p ws e, done, outer⟩ (closing ws ++ p.completion) := by
  generalize hks : closing ws = ks
  induction ks generalizing ws e with
  | nil =>
      obtain ⟨e', hred, -⟩ | ⟨ws', e', -, hc⟩ := closing_reduce Node.negate ws e
      · refine settled_purpose p e' fun t ht => ?_
        simp only [State.feed, State.feedOperator, ht, hred]
      · cases hks.symm.trans hc
  | cons k ks ih =>
      obtain ⟨e', -, hc⟩ | ⟨ws', e', hred, hc⟩ := closing_reduce Node.negate ws e
      · cases hks.symm.trans hc
      · obtain ⟨rfl, rfl⟩ := List.cons.inj (hks.symm.trans hc)
        refine (ih ws' e' rfl).demand (c := p.construct) rfl fun t ht => ?_
        simp only [State.feed, State.feedOperator, ht, Operator.ofKind?, hred]
        rfl

/-- Where an operand must begin, a number is one. -/
theorem settled_operand (p : Purpose) (done : List Node) (outer : List (Body × List Node))
    (ws : List Waiting) :
    Settled ⟨.operand p ws, done, outer⟩ (.number 0 :: (closing ws ++ p.completion)) := by
  refine (settled_operator p done outer ws (.number 0)).cons rfl fun t ht => ?_
  simp only [State.feed, State.feedOperand, ht]
  rfl

/-- Every statement that has begun can be completed. -/
theorem settled_completion (g : Goal) (done : List Node) (outer : List (Body × List Node)) :
    Settled ⟨g, done, outer⟩ g.completion := by
  cases g with
  | statement => exact settled_statement done outer
  | orElse chain c yes => exact ⟨_, _, .nil, like_orElse chain c yes done outer⟩
  | assignMark x => exact (settled_operand (.assign x) done outer []).demand rfl fun t _ => rfl
  | inputName =>
      have hend : Settled ⟨.inputEnd "x", done, outer⟩ [.mark .semicolon] :=
        (settled_statement _ _).demand rfl fun t _ => rfl
      refine hend.cons rfl fun t ht => ?_
      simp only [State.feed, Token.demandName, ht]
      rfl
  | inputEnd x | printEnd e => exact (settled_statement _ _).demand rfl fun t _ => rfl
  | openParen p => exact (settled_operand p done outer []).demand rfl fun t _ => rfl
  | operand p ws => exact settled_operand p done outer ws
  | operator p ws e => exact settled_operator p done outer ws e
  | openBrace b => exact settled_block b fun t ht => State.demand_ok ht _ _
  | elseBody chain c yes =>
      refine settled_block (.no chain c yes) fun t ht => ?_
      simp only [State.feed]
      rw [if_neg (by simp [ht])]
      exact State.demand_ok ht _ _

/-- The open blocks are closed from the inside out. -/
theorem feeds_braces {outer : List (Body × List Node)} : ∀ {s : State} {done : List Node},
    Like s ⟨.statement, done, outer⟩ →
      ∃ s' done', Feeds s (outer.map fun _ => .mark .closeBrace) s' ∧
        Like s' ⟨.statement, done', []⟩ := by
  induction outer with
  | nil => exact fun hl => ⟨_, _, .nil, hl⟩
  | cons b outer ih =>
      intro s done hl
      obtain ⟨b, before⟩ := b
      obtain ⟨done₁, hl₁⟩ := like_leave .statement done b before outer
      obtain ⟨s', done', hf, hl'⟩ := ih hl₁
      refine ⟨s', done', .cons (fun t ht => ?_) hf, hl'⟩
      rw [hl t (by simp [ht])]
      simp only [State.feed, State.feedStatement, ht]

/-- **Every state can be completed**: behind its completion an end token completes a program. -/
theorem feeds_completion (s : State) :
    ∃ s' root, Feeds s s.completion s' ∧
      ∀ t : Token, t.kind = .finish → s'.feed Node.negate t = .ok (.accept root) := by
  obtain ⟨g, done, outer⟩ := s
  obtain ⟨s₁, done₁, hf₁, hl₁⟩ := settled_completion g done outer
  obtain ⟨s₂, done₂, hf₂, hl₂⟩ := feeds_braces hl₁
  refine ⟨s₂, .block done₂.reverse, hf₁.trans hf₂, fun t ht => ?_⟩
  rw [hl₂ t (by simp [ht])]
  simp only [State.feed, State.feedStatement, ht]

/-! ### What an error says -/

/-- What an error says about token `t`, where `step` is what each token leads to: it is found at
`t`, and each token that is called for would have led on. -/
def Refuses (step : Token → Except ParseError Step) (t : Token) (e : ParseError) : Prop :=
  e.span = t.span ∧ e.found = t.kind.description ∧
    ∀ x, e.expected? = some x →
      (∃ k, x.Names k) ∧ ∀ u : Token, x.Names u.kind → ∃ s, step u = .ok (.next s)

/-- A mark that is called for would have led on. -/
theorem Refuses.demand {step : Token → Except ParseError Step} {t : Token} {m : Mark}
    {c : Construct} {s : State} {e : ParseError}
    (hm : ∀ u : Token, u.kind = .mark m → ∃ s, step u = .ok (.next s))
    (h : State.demand t m c s = .error e) : Refuses step t e := by
  by_cases hk : t.kind = .mark m
  · rw [State.demand_ok hk] at h
    cases h
  · rw [State.demand, Token.demand, if_neg (mt alike_mark_iff.mp hk)] at h
    cases h
    refine ⟨rfl, rfl, fun x hx => ?_⟩
    cases hx
    exact ⟨⟨.mark m, alike_mark_iff.mpr rfl⟩, fun u hu => hm u (alike_mark_iff.mp hu)⟩

/-- The same, where the step is to demand the mark. -/
theorem Refuses.of_demand {step : Token → Except ParseError Step} {t : Token} {m : Mark}
    {c : Construct} {s : State} {e : ParseError}
    (hm : ∀ u : Token, u.kind = .mark m → step u = State.demand u m c s)
    (h : State.demand t m c s = .error e) : Refuses step t e :=
  .demand (fun u hu => ⟨s, (hm u hu).trans (State.demand_ok hu c s)⟩) h

theorem State.feedStatement_refuses {s : State} {t : Token} {e : ParseError}
    (h : s.feedStatement t = .error e) : Refuses s.feedStatement t e := by
  unfold State.feedStatement at h
  split at h
  case h_8 b outer hk houter =>
      cases h
      refine ⟨rfl, rfl, fun x hx => ?_⟩
      cases hx
      refine ⟨⟨.mark .closeBrace, rfl⟩, fun u hu => ?_⟩
      simp only [State.feedStatement, alike_mark_iff.mp hu, houter]
      exact ⟨_, rfl⟩
  case h_9 =>
      cases h
      exact ⟨rfl, rfl, fun x hx => by cases hx⟩
  all_goals cases h

theorem State.feedOperand_refuses {s : State} {p : Purpose} {ws : List Waiting} {t : Token}
    {e : ParseError} (h : s.feedOperand p ws t = .error e) :
    Refuses (s.feedOperand p ws) t e := by
  unfold State.feedOperand at h
  split at h
  case h_6 =>
      cases h
      exact ⟨rfl, rfl, fun x hx => by cases hx⟩
  all_goals cases h

theorem State.feedOperator_refuses {negate : Node → Node} {s : State} {p : Purpose}
    {ws : List Waiting} {n : Node} {t : Token} {e : ParseError}
    (h : s.feedOperator negate p ws n t = .error e) :
    Refuses (s.feedOperator negate p ws n) t e := by
  rw [State.feedOperator] at h
  split at h
  · cases h
  · -- The mark that is called for is no operator, so it meets the same end of the expression.
    obtain ⟨n', hred, -⟩ | ⟨ws', n', hred, -⟩ := closing_reduce negate ws n
    · rw [hred] at h
      have hend : ∀ u : Token, Operator.ofKind? u.kind = none →
          s.feedOperator negate p ws n u = s.feedEnd p n' u := fun u hu => by
        rw [State.feedOperator, hu, hred]
      cases p with
      | assign x => exact .of_demand (fun u hu => hend u (by rw [hu]; rfl)) h
      | print | branch chain | loop => exact .of_demand (fun u hu => hend u (by rw [hu]; rfl)) h
    · rw [hred] at h
      refine .of_demand (fun u hu => ?_) h
      simp only [State.feedOperator, hu, Operator.ofKind?, hred]

/-- **An error is about its token**, and what it calls for would have led on. -/
theorem State.refuses {negate : Node → Node} {s : State} {t : Token} {e : ParseError}
    (h : s.feed negate t = .error e) : Refuses (s.feed negate) t e := by
  obtain ⟨g, done, outer⟩ := s
  cases g with
  | statement => exact State.feedStatement_refuses h
  | assignMark | inputEnd | openParen | printEnd | openBrace =>
      exact .of_demand (fun u _ => rfl) h
  | inputName =>
      simp only [State.feed, Token.demandName] at h
      split at h
      · cases h
      · next e' he =>
          split at he
          · cases he
          · cases he
            cases h
            refine ⟨rfl, rfl, fun x hx => ?_⟩
            cases hx
            refine ⟨⟨.name "x", "x", rfl⟩, ?_⟩
            rintro u ⟨x, hu⟩
            simp only [State.feed, Token.demandName, hu]
            exact ⟨_, rfl⟩
  | operand p ws => exact State.feedOperand_refuses h
  | operator p ws n => exact State.feedOperator_refuses h
  | orElse chain c yes =>
      simp only [State.feed] at h
      split at h
      · cases h
      · -- An `else` is never called for, so what is called for is taken by the next statement.
        obtain ⟨hspan, hfound, hnames⟩ := State.feedStatement_refuses h
        refine ⟨hspan, hfound, fun x hx => ⟨(hnames x hx).1, fun u hu => ?_⟩⟩
        by_cases hk : u.kind = .keyword .otherwise
        · simp only [State.feed, if_pos hk]
          exact ⟨_, rfl⟩
        · simp only [State.feed, if_neg hk]
          exact (hnames x hx).2 u hu
  | elseBody chain c yes =>
      simp only [State.feed] at h
      split at h
      · cases h
      · refine .of_demand (fun u hu => ?_) h
        simp only [State.feed]
        rw [if_neg (by simp [hu])]

/-! ### Whole lists of tokens -/

/-- The tokens lead from `s` to `s'`. -/
inductive Passes (negate : Node → Node) : State → List Token → State → Prop where
  | nil {s : State} : Passes negate s [] s
  | cons {s s₁ s' : State} {t : Token} {ts : List Token} :
      s.feed negate t = .ok (.next s₁) → Passes negate s₁ ts s' → Passes negate s (t :: ts) s'

theorem Passes.trans {negate : Node → Node} {s s₁ s' : State} {ts us : List Token}
    (h : Passes negate s ts s₁) (h' : Passes negate s₁ us s') : Passes negate s (ts ++ us) s' := by
  induction h with
  | nil => exact h'
  | cons hf _ ih => exact .cons hf (ih h')

/-- Tokens of kinds that lead on do so, wherever they stand. -/
theorem Feeds.passes {s s' : State} {ks : List TokenKind} (h : Feeds s ks s') :
    Passes Node.negate s (ks.map (Token.mk · .empty)) s' := by
  induction h with
  | nil => exact .nil
  | cons hf _ ih => exact .cons (hf _ rfl) ih

/-- A run behind tokens that lead on is a run from the state that they lead to. -/
theorem Passes.run {negate : Node → Node} {s s' : State} {ts : List Token}
    (h : Passes negate s ts s') (fuel : Nat) (us : List Token) (last : Token) :
    run negate (fuel + ts.length) s ⟨ts ++ us, last⟩ = run negate fuel s' ⟨us, last⟩ := by
  induction h with
  | nil => rfl
  | @cons s s₁ s' t ts hf _ ih =>
      have hne : t.kind ≠ .finish := fun hk => State.feed_finish hk _ _ _ hf
      rw [List.length_cons, ← Nat.add_assoc, Parser.run, List.cons_append, current_cons, hf]
      simp only [advance_cons hne]
      exact ih

/-- A run that ends in an error has refused one of the tokens. -/
theorem exists_refused {negate : Node → Node} {e : ParseError} {ts : List Token} :
    ∀ {fuel : Nat} {s : State} {last : Token}, (∃ t ∈ ts, t.kind = .finish) →
      run negate fuel s ⟨ts, last⟩ = some (.error e) →
      ∃ us t vs s', ts = us ++ t :: vs ∧ Passes negate s us s' ∧ s'.feed negate t = .error e := by
  induction ts with
  | nil =>
      rintro fuel s last ⟨_, ht, _⟩
      exact absurd ht List.not_mem_nil
  | cons t ts ih =>
      intro fuel s last hfin hrun
      obtain _ | fuel := fuel
      · cases hrun
      rw [run, current_cons] at hrun
      split at hrun
      · next e' he =>
          cases hrun
          exact ⟨[], t, ts, s, rfl, .nil, he⟩
      · cases hrun
      · next s₁ hs =>
          have hne : t.kind ≠ .finish := fun hk => State.feed_finish hk _ _ _ hs
          rw [advance_cons hne] at hrun
          obtain ⟨us, u, vs, s', rfl, hp, he⟩ := ih (finish_mem_tail hne hfin) hrun
          exact ⟨t :: us, u, vs, s', rfl, .cons hs hp, he⟩

end Parser

open Treewalk.Parser

/-- What comes behind tokens that lead to a state decides what the parser answers. -/
theorem parse_passes {us : List Token} {s : State} (h : Passes Node.negate .start us s)
    (t : Token) (vs : List Token) :
    ∃ fuel last, parse (us ++ t :: vs) = Parser.run Node.negate (fuel + 1) s ⟨t :: vs, last⟩ := by
  have hfuel : fuel (us ++ t :: vs).length = us.length + 2 * vs.length + 3 + 1 + us.length := by
    simp only [fuel, List.length_append, List.length_cons]
    omega
  refine ⟨us.length + 2 * vs.length + 3, (us ++ t :: vs).getLast?.getD .nothing, ?_⟩
  rw [← h.run, ← hfuel]
  rfl

/-- Tokens that lead to a state are the beginning of a program. -/
theorem exists_parse_of_passes {us : List Token} {s : State}
    (h : Passes Node.negate .start us s) :
    ∃ vs root, parse (us ++ vs) = some (.ok root) := by
  obtain ⟨s', root, hf, hacc⟩ := feeds_completion s
  obtain ⟨fuel, last, hp⟩ := parse_passes (h.trans hf.passes) .nothing []
  refine ⟨s.completion.map (Token.mk · .empty) ++ [.nothing], root, ?_⟩
  rw [← List.append_assoc, hp, Parser.run, current_cons, hacc .nothing rfl]

/-- **The parser stops at the first token that cannot be right.**  The error of a list that holds an
end token is about one of its tokens; the tokens before that one are the beginning of a program, and
with it they are not.  If the error tells what was called for, each token of that description
continues the beginning of a program. -/
theorem parse_error_at_first_misfit {ts : List Token} (h : ∃ t ∈ ts, t.kind = .finish)
    {e : ParseError} (he : parse ts = some (.error e)) :
    ∃ (k : Nat) (hk : k < ts.length),
      e.span = ts[k].span ∧ e.found = ts[k].kind.description ∧
      (∃ vs root, parse (ts.take k ++ vs) = some (.ok root)) ∧
      (∀ vs root, parse (ts.take (k + 1) ++ vs) ≠ some (.ok root)) ∧
      ∀ x, e.expected? = some x →
        (∃ l, x.Names l) ∧ ∀ u : Token, x.Names u.kind →
          ∃ vs root, parse (ts.take k ++ u :: vs) = some (.ok root) := by
  obtain ⟨us, t, vs, s, rfl, hpass, hfeed⟩ := exists_refused h he
  obtain ⟨hspan, hfound, hnames⟩ := State.refuses hfeed
  have htake : (us ++ t :: vs).take (us.length + 1) = us ++ [t] := List.take_length_add_append 1
  have hlt : us.length < (us ++ t :: vs).length := by simp
  have hget : (us ++ t :: vs)[us.length] = t := by simp
  refine ⟨us.length, hlt, by rw [hget, hspan], by rw [hget, hfound], ?_, ?_, ?_⟩
  · rw [List.take_left]
    exact exists_parse_of_passes hpass
  · intro ws root hp
    obtain ⟨fuel, last, hrun⟩ := parse_passes hpass t ws
    rw [htake, List.append_assoc, List.singleton_append, hrun, Parser.run, current_cons,
      hfeed] at hp
    cases hp
  · intro x hx
    refine ⟨(hnames x hx).1, fun u hu => ?_⟩
    obtain ⟨s', hs'⟩ := (hnames x hx).2 u hu
    obtain ⟨ws, root, hp⟩ := exists_parse_of_passes (hpass.trans (.cons hs' .nil))
    rw [List.append_assoc] at hp
    rw [List.take_left]
    exact ⟨ws, root, hp⟩

/-- `while (x < (1;` stops at the semicolon, and a closing parenthesis could stand there. -/
theorem misfit_in_open_parenthesis :
    let ts : List Token := [⟨.keyword .loop, ⟨0, 5⟩⟩, ⟨.mark .openParen, ⟨6, 7⟩⟩,
      ⟨.name "x", ⟨7, 8⟩⟩, ⟨.mark .less, ⟨9, 10⟩⟩, ⟨.mark .openParen, ⟨11, 12⟩⟩,
      ⟨.number 1, ⟨12, 13⟩⟩, ⟨.mark .semicolon, ⟨13, 14⟩⟩, ⟨.finish, ⟨14, 14⟩⟩]
    parse ts = some (.error (.unexpected (.kind (.mark .closeParen)) "`;`" ⟨13, 14⟩
        (some .loop))) ∧
      ∃ vs root, parse (ts.take 6 ++ ⟨.mark .closeParen, ⟨13, 14⟩⟩ :: vs) = some (.ok root) := by
  intro ts
  have he : parse ts = some (.error (.unexpected (.kind (.mark .closeParen)) "`;`" ⟨13, 14⟩
      (some .loop))) := rfl
  have hfin : ∃ t ∈ ts, t.kind = .finish := ⟨⟨.finish, ⟨14, 14⟩⟩, by decide, rfl⟩
  obtain ⟨k, hk, hspan, -, -, -, hnames⟩ := parse_error_at_first_misfit hfin he
  -- No other token has this span.
  have hsix : ∀ i (hi : i < ts.length), (⟨13, 14⟩ : Span) = ts[i].span → i = 6 := by decide
  obtain rfl := hsix k hk hspan
  exact ⟨he, (hnames _ rfl).2 ⟨.mark .closeParen, ⟨13, 14⟩⟩ rfl⟩

end Treewalk
