import Treewalk.Proofs.Grammar.Soundness

/-!
# Grammar — The parser reads what the grammar derives

`Feeds s ks s'` says that tokens of the kinds `ks` lead the parser from `s` to `s'`.  Every
derivation is followed by the parser, in any surroundings:

* `feeds_expression`: an expression is followed up to operators that still wait; what they will be
  applied to is settled, whatever comes next (`reduce` gives the same on both).
* `follows_of_derives`: the parts above expressions.  Behind an `if` without `else` the parser still
  waits for one, and behaves on all else as if the statement were complete (`Like`).

Together with what the parser has read (`Reached`), the parser accepts exactly the programs of the
grammar, with their trees (`parse_eq_ok_iff`).
-/

namespace Treewalk

theorem Node.negate_of_ne {e : Node} (h : ∀ n, e ≠ .number n) :
    e.negate = .binary .sub (.number 0) e := by
  cases e with
  | number n => exact absurd rfl (h n)
  | _ => rfl

namespace Grammar

/-- The kinds of the tokens before the first end token. -/
def content (ts : List Token) : List TokenKind :=
  (ts.map (·.kind)).takeWhile (· ≠ .finish)

theorem content_finish {t : Token} (h : t.kind = .finish) {ts : List Token} :
    content (t :: ts) = [] := by
  simp [content, h]

theorem content_cons {t : Token} (h : t.kind ≠ .finish) {ts : List Token} :
    content (t :: ts) = t.kind :: content ts := by
  simp [content, h]

end Grammar

namespace Parser
open Grammar

/-! ### Following tokens -/

/-- Tokens of the kinds `ks` lead from `s` to `s'`, wherever they stand. -/
inductive Feeds : State → List TokenKind → State → Prop where
  | nil {s : State} : Feeds s [] s
  | cons {s s₁ s' : State} {k : TokenKind} {ks : List TokenKind} :
      (∀ t : Token, t.kind = k → s.feed Node.negate t = .ok (.next s₁)) → Feeds s₁ ks s' →
      Feeds s (k :: ks) s'

theorem Feeds.one {s s' : State} {k : TokenKind}
    (h : ∀ t : Token, t.kind = k → s.feed Node.negate t = .ok (.next s')) : Feeds s [k] s' :=
  .cons h .nil

theorem Feeds.trans {s s₁ s' : State} {ks ls : List TokenKind} (h : Feeds s ks s₁)
    (h' : Feeds s₁ ls s') : Feeds s (ks ++ ls) s' := by
  induction h with
  | nil => exact h'
  | cons hf _ ih => exact .cons hf (ih h')

/-! ### Expressions -/

theorem Firm.mono {level level' : Nat} (h : level ≤ level') :
    ∀ {ws : List Waiting}, Firm level ws → Firm level' ws
  | [], _ | .paren :: _, _ => trivial
  | .operation _ _ :: _, hf => Nat.lt_of_lt_of_le hf h

theorem reduce_firm (negate : Node → Node) {level : Nat} (e : Node) :
    ∀ {ws : List Waiting}, Firm level ws → reduce negate level ws e = (ws, e)
  | [], _ | .paren :: _, _ => rfl
  | .operation _ _ :: _, hf => by rw [reduce, if_neg (Nat.not_le_of_lt hf)]

/-- The operand `e'` with `ws'` waiting will be what `e` with `ws` is, for every operator that a
token of rank `r` may be followed by. -/
def Settles (r : Rank) (ws' : List Waiting) (e' : Node) (ws : List Waiting) (e : Node) : Prop :=
  ∀ level, level ≤ 4 → level ≤ r.level →
    reduce Node.negate level ws' e' = reduce Node.negate level ws e

theorem Settles.refl (r : Rank) (ws : List Waiting) (e : Node) : Settles r ws e ws e :=
  fun _ _ _ => rfl

/-- A minus sign in front waits, and binds tighter than what comes next. -/
theorem Settles.negation {r : Rank} {ws' ws : List Waiting} {e' e : Node}
    (h : Settles r ws' e' (.negation :: ws) e) : Settles r ws' e' ws e.negate :=
  fun level hl hr => h level hl hr

/-- **The parser follows an expression**, if what waits is firm against the expression's own
operators. -/
theorem feeds_expression {r : Rank} {ks : List TokenKind} {e : Node} (he : Expression r ks e)
    (p : Purpose) (done : List Node) (outer : List (Body × List Node)) :
    ∀ ws : List Waiting, (r.level ≤ 4 → Firm r.level ws) →
      ∃ ws' e', Feeds ⟨.operand p ws, done, outer⟩ ks ⟨.operator p ws' e', done, outer⟩ ∧
        Settles r ws' e' ws e := by
  induction he with
  | number | text | name =>
      refine fun ws _ => ⟨ws, _, .one fun t ht => ?_, .refl _ _ _⟩
      simp only [State.feed, State.feedOperand, ht]
      rfl
  | @parens ks e _ ih =>
      intro ws _
      obtain ⟨ws', e', hf, hs⟩ := ih (.paren :: ws) fun _ => trivial
      refine ⟨ws, e, .cons (fun t ht => ?_) (hf.trans (.one fun t ht => ?_)), .refl _ _ _⟩
      · simp only [State.feed, State.feedOperand, ht]
        rfl
      -- The closing parenthesis applies all that waits inside.
      · have hred : reduce Node.negate 0 ws' e' = (.paren :: ws, e) := hs 0 (by decide) (by decide)
        simp only [State.feed, State.feedOperator, ht, Operator.ofKind?, hred]
        exact State.demand_ok ht _ _
  | @minusNumber ks n _ ih =>
      intro ws _
      obtain ⟨ws', e', hf, hs⟩ := ih (.negation :: ws) fun h => absurd h (by decide)
      refine ⟨ws', e', .cons (fun t ht => ?_) hf, hs.negation⟩
      simp only [State.feed, State.feedOperand, ht]
      rfl
  | @minus ks e _ hne ih =>
      intro ws _
      obtain ⟨ws', e', hf, hs⟩ := ih (.negation :: ws) fun h => absurd h (by decide)
      refine ⟨ws', e', .cons (fun t ht => ?_) hf, Node.negate_of_ne hne ▸ hs.negation⟩
      simp only [State.feed, State.feedOperand, ht]
      rfl
  | @operation op ks ls l r _ _ ihl ihr =>
      intro ws hfirm
      have hfirm : Firm op.level ws := by
        have h4 := Operator.level_le op
        rw [← level_rank] at h4 ⊢
        exact hfirm h4
      obtain ⟨ws₁, e₁, hf₁, hs₁⟩ := ihl ws fun _ => (level_rank op).symm ▸ hfirm
      -- All that binds at least as tightly is applied to the left operand, which then waits.
      have hred : reduce Node.negate op.level ws₁ e₁ = (ws, l) :=
        (hs₁ _ (Operator.level_le op) (Nat.le_of_eq (level_rank op).symm)).trans
          (reduce_firm _ _ hfirm)
      obtain ⟨ws₂, e₂, hf₂, hs₂⟩ := ihr (.operation op l :: ws) fun _ => by
        rw [level_tighter_rank]
        exact Nat.lt_succ_self _
      refine ⟨ws₂, e₂, hf₁.trans (.cons (fun t ht => ?_) hf₂), fun level hl hr => ?_⟩
      · have hop := Operator.ofKind?_eq_some_iff.mpr ht
        simp only [State.feed, State.feedOperator, hop, hred]
        rfl
      · rw [level_rank] at hr
        rw [hs₂ level hl (by rw [level_tighter_rank]; omega), reduce, if_pos hr]
  | @tighter r ks e _ ih =>
      intro ws hfirm
      have hle := Rank.level_le_tighter r
      obtain ⟨ws', e', hf, hs⟩ := ih ws fun h => (hfirm (by omega)).mono hle
      exact ⟨ws', e', hf, fun level hl hr => hs level hl (by omega)⟩

/-- Behind a whole expression, a token that is no operator meets what the expression is for. -/
theorem feeds_whole {ks : List TokenKind} {e : Node} (he : Expression .equality ks e)
    (p : Purpose) (done : List Node) (outer : List (Body × List Node)) :
    ∃ s, Feeds ⟨.operand p [], done, outer⟩ ks s ∧
      ∀ t : Token, Operator.ofKind? t.kind = none →
        s.feed Node.negate t = State.feedEnd ⟨.statement, done, outer⟩ p e t := by
  obtain ⟨ws', e', hf, hs⟩ := feeds_expression he p done outer [] fun _ => trivial
  have hred : reduce Node.negate 0 ws' e' = ([], e) := hs 0 (by decide) (by decide)
  refine ⟨_, hf, fun t ht => ?_⟩
  simp only [State.feed, State.feedOperator, ht, hred]
  cases p <;> rfl

/-! ### Statements -/

/-- The states behave alike on everything but an `else`. -/
def Like (s s' : State) : Prop :=
  ∀ t : Token, t.kind ≠ .keyword .otherwise → s.feed Node.negate t = s'.feed Node.negate t

theorem Feeds.like {s s' s'' : State} {k : TokenKind} {ks : List TokenKind}
    (h : Feeds s' (k :: ks) s'') (hs : Like s s') (hk : k ≠ .keyword .otherwise) :
    Feeds s (k :: ks) s'' := by
  cases h with
  | cons hf h => exact .cons (fun t ht => (hs t (ht ▸ hk)).trans (hf t ht)) h

/-- An expression in parentheses, up to what its purpose calls for next. -/
theorem feeds_parens {ks : List TokenKind} {e : Node} (he : Expression .equality ks e)
    (p : Purpose) (done : List Node) (outer : List (Body × List Node)) {g : Goal}
    (hp : ∀ t : Token, t.kind = .mark .closeParen →
      State.feedEnd ⟨.statement, done, outer⟩ p e t = .ok (.next ⟨g, done, outer⟩)) :
    Feeds ⟨.openParen p, done, outer⟩ (.mark .openParen :: (ks ++ [.mark .closeParen]))
      ⟨g, done, outer⟩ := by
  obtain ⟨s, hf, hs⟩ := feeds_whole he p done outer
  refine .cons (fun t ht => State.demand_ok ht _ _) (hf.trans (.one fun t ht => ?_))
  rw [hs t (by rw [ht]; rfl)]
  exact hp t ht

/-- How the parser follows a part of a program. -/
def Follows : Part → List TokenKind → List Node → Prop
  | .statement, ks, ns => ∃ n k ks', ns = [n] ∧ ks = k :: ks' ∧ k ≠ .keyword .otherwise ∧
      ∀ done outer, ∃ s, Feeds ⟨.statement, done, outer⟩ ks s ∧
        Like s ⟨.statement, n :: done, outer⟩
  | .conditional, ks, ns => ∃ n ks', ns = [n] ∧ ks = .keyword .branch :: ks' ∧
      ∀ (chain : Chain) done outer, ∃ s, Feeds ⟨.openParen (.branch chain), done, outer⟩ ks' s ∧
        Like s ⟨.statement, chain.close n :: done, outer⟩
  | .block, ks, ns => ∃ ks', ks = .mark .openBrace :: ks' ∧ ∀ b before outer,
      Feeds ⟨.statement, [], (b, before) :: outer⟩ ks'
        (State.leave ⟨.statement, ns.reverse, (b, before) :: outer⟩ b before outer)
  | .statements, ks, ns => ∀ done outer s, Like s ⟨.statement, done, outer⟩ →
      ∃ s', Feeds s ks s' ∧ Like s' ⟨.statement, ns.reverse ++ done, outer⟩

/-- The parser follows an `if` up to its first block, and then waits for an `else`. -/
theorem feeds_ifOnly {ks ys : List TokenKind} {c : Node} {yes : List Node}
    (he : Expression .equality ks c) (hy : Follows .block ys yes) (chain : Chain)
    (done : List Node) (outer : List (Body × List Node)) :
    Feeds ⟨.openParen (.branch chain), done, outer⟩
      (.mark .openParen :: (ks ++ [.mark .closeParen]) ++ ys)
      ⟨.orElse chain c yes, done, outer⟩ := by
  obtain ⟨ys', rfl, hb⟩ := hy
  have hparens := feeds_parens he (.branch chain) done outer (g := .openBrace (.yes chain c))
    fun t ht => State.demand_ok ht _ _
  refine hparens.trans (.cons (fun t ht => State.demand_ok ht _ _) ?_)
  have h := hb (.yes chain c) done outer
  simpa [State.enter, State.leave] using h

/-- Behind the first block of an `if`, the parser follows an `else` and what comes after it. -/
theorem feeds_otherwise {ks ys ls : List TokenKind} {c : Node} {yes : List Node}
    (he : Expression .equality ks c) (hy : Follows .block ys yes) {chain : Chain}
    {done : List Node} {outer : List (Body × List Node)} {s : State}
    (h : Feeds ⟨.elseBody chain c yes, done, outer⟩ ls s) :
    Feeds ⟨.openParen (.branch chain), done, outer⟩
      (.mark .openParen :: (ks ++ [.mark .closeParen]) ++ (ys ++ .keyword .otherwise :: ls)) s := by
  have helse : Feeds ⟨.orElse chain c yes, done, outer⟩ (.keyword .otherwise :: ls) s := by
    refine .cons (fun t ht => ?_) h
    simp only [State.feed, if_pos ht]
    rfl
  rw [← List.append_assoc]
  exact (feeds_ifOnly he hy chain done outer).trans helse

theorem Like.refl (s : State) : Like s s := fun _ _ => rfl

/-- **The parser follows every derivation.** -/
theorem follows_of_derives {p : Part} {ks : List TokenKind} {ns : List Node}
    (h : Derives p ks ns) : Follows p ks ns := by
  induction h with
  | @assign x ks e he =>
      refine ⟨_, _, _, rfl, rfl, by simp, fun done outer => ?_⟩
      obtain ⟨s, hf, hs⟩ := feeds_whole he (.assign x) done outer
      have hend : Feeds s [.mark .semicolon] ⟨.statement, .assign x e :: done, outer⟩ :=
        .one fun t ht => by
          rw [hs t (by rw [ht]; rfl)]
          exact State.demand_ok ht _ _
      have hmark : Feeds ⟨.assignMark x, done, outer⟩ (.mark .assign :: (ks ++ [.mark .semicolon]))
          ⟨.statement, .assign x e :: done, outer⟩ :=
        .cons (fun t ht => State.demand_ok ht _ _) (hf.trans hend)
      refine ⟨_, .cons (fun t ht => ?_) hmark, .refl _⟩
      simp only [State.feed, State.feedStatement, ht]
      rfl
  | @input x =>
      refine ⟨_, _, _, rfl, rfl, by simp, fun done outer => ?_⟩
      have hname : Feeds ⟨.inputName, done, outer⟩ [.name x, .mark .semicolon]
          ⟨.statement, .input x :: done, outer⟩ := by
        have hend : Feeds ⟨.inputEnd x, done, outer⟩ [.mark .semicolon]
            ⟨.statement, .input x :: done, outer⟩ := .one fun t ht => State.demand_ok ht _ _
        refine .cons (fun t ht => ?_) hend
        simp only [State.feed, Token.demandName, ht]
        rfl
      refine ⟨_, .cons (fun t ht => ?_) hname, .refl _⟩
      simp only [State.feed, State.feedStatement, ht]
      rfl
  | @print ks e he =>
      refine ⟨_, _, _, rfl, rfl, by simp, fun done outer => ⟨_, ?_, .refl _⟩⟩
      have hparens := feeds_parens he .print done outer (g := .printEnd e)
        fun t ht => State.demand_ok ht _ _
      refine .cons (fun t ht => ?_) (hparens.trans (.one fun t ht => State.demand_ok ht _ _))
      simp only [State.feed, State.feedStatement, ht]
      rfl
  | conditional _ ih =>
      obtain ⟨n, ks', rfl, rfl, hf⟩ := ih
      refine ⟨_, _, _, rfl, rfl, by simp, fun done outer => ?_⟩
      obtain ⟨s, hs, hl⟩ := hf [] done outer
      refine ⟨s, .cons (fun t ht => ?_) hs, hl⟩
      simp only [State.feed, State.feedStatement, ht]
      rfl
  | @loop ks bs c body he _ ih =>
      obtain ⟨bs', rfl, hb⟩ := ih
      refine ⟨_, _, _, rfl, rfl, by simp, fun done outer => ?_⟩
      have hparens := feeds_parens he .loop done outer (g := .openBrace (.loop c))
        fun t ht => State.demand_ok ht _ _
      refine ⟨_, .cons (fun t ht => ?_) (hparens.trans
        (.cons (fun t ht => State.demand_ok ht _ _) (hb (.loop c) done outer))), ?_⟩
      · simp only [State.feed, State.feedStatement, ht]
        rfl
      · simpa [State.leave, State.finish] using Like.refl _
  | ifOnly he _ ih =>
      refine ⟨_, _, rfl, rfl, fun chain done outer =>
        ⟨_, feeds_ifOnly he ih chain done outer, fun t ht => ?_⟩⟩
      simp only [State.feed, if_neg ht]
      rfl
  | @ifElse ks ys zs c yes no he _ _ ihy ihz =>
      obtain ⟨zs', rfl, hz⟩ := ihz
      refine ⟨_, _, rfl, rfl, fun chain done outer =>
        ⟨⟨.statement, chain.close (.branch c yes no) :: done, outer⟩, ?_, .refl _⟩⟩
      have hno := hz (.no chain c yes) done outer
      rw [State.leave, List.reverse_reverse] at hno
      refine feeds_otherwise he ihy (.cons (fun t ht => ?_) hno)
      simp only [State.feed]
      rw [if_neg (by simp [ht])]
      exact State.demand_ok ht _ _
  | @elseIf ks ys zs c yes no he _ _ ihy ihz =>
      obtain ⟨n, zs', rfl, rfl, hz⟩ := ihz
      refine ⟨_, _, rfl, rfl, fun chain done outer => ?_⟩
      obtain ⟨s, hs, hl⟩ := hz ((c, yes) :: chain) done outer
      refine ⟨s, feeds_otherwise he ihy (.cons (fun t ht => ?_) hs), hl⟩
      simp only [State.feed, if_pos ht]
      rfl
  | @block ks ns _ ih =>
      refine ⟨_, rfl, fun b before outer => ?_⟩
      obtain ⟨s, hs, hl⟩ := ih [] ((b, before) :: outer) _ (.refl _)
      -- The brace finds the statements complete, also behind an `if` without `else`.
      refine hs.trans (.one fun t ht => ?_)
      rw [hl t (by simp [ht]), List.append_nil]
      simp only [State.feed, State.feedStatement, ht]
  | nil => exact fun done outer s hs => ⟨s, .nil, hs⟩
  | @cons ks ls ms ns _ _ ihs ih =>
      obtain ⟨n, k, ks', rfl, rfl, hk, hf⟩ := ihs
      intro done outer s hs
      -- A statement does not begin with `else`, so it finds the one before it complete.
      obtain ⟨s₁, hs₁, hl₁⟩ := hf done outer
      obtain ⟨s₂, hs₂, hl₂⟩ := ih (n :: done) outer s₁ hl₁
      refine ⟨s₂, (hs₁.like hs hk).trans hs₂, ?_⟩
      simpa using hl₂

/-! ### Whole lists of tokens -/

theorem advance_cons {t : Token} (h : t.kind ≠ .finish) (ts : List Token) (last : Token) :
    Cursor.advance ⟨t :: ts, last⟩ = ⟨ts, last⟩ := by
  simp [Cursor.advance, Cursor.atEnd, Cursor.current, h]

theorem current_cons (t : Token) (ts : List Token) (last : Token) :
    Cursor.current ⟨t :: ts, last⟩ = t := rfl

theorem finish_mem_tail {t : Token} (hne : t.kind ≠ .finish) {ts : List Token}
    (h : ∃ u ∈ t :: ts, u.kind = .finish) : ∃ u ∈ ts, u.kind = .finish := by
  obtain ⟨u, hu, hk⟩ := h
  rcases List.mem_cons.mp hu with rfl | hu
  · exact absurd hk hne
  · exact ⟨u, hu, hk⟩

/-- A run that ends in a tree has read a program with that tree. -/
theorem run_sound {ts : List Token} : ∀ {fuel : Nat} {s : State} {ks : List TokenKind}
    {last : Token} {root : Node}, Reached s ks → (∃ t ∈ ts, t.kind = .finish) →
    run Node.negate fuel s ⟨ts, last⟩ = some (.ok root) → Program (ks ++ content ts) root := by
  induction ts with
  | nil => exact fun _ ⟨_, ht, _⟩ => absurd ht List.not_mem_nil
  | cons t ts ih =>
      intro fuel s ks last root hs hfin hrun
      obtain _ | fuel := fuel
      · cases hrun
      rw [run, current_cons] at hrun
      split at hrun
      · cases hrun
      · next root' hfeed =>
          cases hrun
          obtain ⟨hk, hprogram⟩ := hs.feed hfeed
          rwa [content_finish hk, List.append_nil]
      · next s' hfeed =>
          have hne : t.kind ≠ .finish := fun h => State.feed_finish h _ _ _ hfeed
          rw [advance_cons hne] at hrun
          have h := ih (hs.feed hfeed) (finish_mem_tail hne hfin) hrun
          rw [content_cons hne]
          rwa [List.append_assoc] at h

/-- A run follows the tokens that lead to a complete program. -/
theorem run_feeds {ts : List Token} : ∀ {fuel : Nat} {s s' : State} {last : Token} {root : Node},
    Feeds s (content ts) s' → (∃ t ∈ ts, t.kind = .finish) →
    (∀ t : Token, t.kind = .finish → s'.feed Node.negate t = .ok (.accept root)) →
    ts.length < fuel → run Node.negate fuel s ⟨ts, last⟩ = some (.ok root) := by
  induction ts with
  | nil => exact fun _ ⟨_, ht, _⟩ => absurd ht List.not_mem_nil
  | cons t ts ih =>
      intro fuel s s' last root hs hfin hacc hlt
      obtain _ | fuel := fuel
      · exact absurd hlt (Nat.not_lt_zero _)
      rw [run, current_cons]
      by_cases hk : t.kind = .finish
      · rw [content_finish hk] at hs
        cases hs
        rw [hacc t hk]
      · rw [content_cons hk] at hs
        cases hs with
        | cons hfeed hs =>
            rw [hfeed t rfl]
            simp only [advance_cons hk]
            exact ih hs (finish_mem_tail hk hfin) hacc (Nat.lt_of_succ_lt_succ hlt)

end Parser

open Grammar Treewalk.Parser

/-- What the parser accepts is a program of the grammar. -/
theorem program_of_parse {ts : List Token} (h : ∃ t ∈ ts, t.kind = .finish) {root : Node}
    (hp : parse ts = some (.ok root)) : Program (content ts) root :=
  run_sound reached_start h hp

/-- The parser accepts every program of the grammar, with its tree. -/
theorem parse_of_program {ts : List Token} (h : ∃ t ∈ ts, t.kind = .finish) {root : Node}
    (hp : Program (content ts) root) : parse ts = some (.ok root) := by
  obtain ⟨ns, hd, rfl⟩ := hp
  obtain ⟨s', hf, hl⟩ := follows_of_derives hd [] [] .start (.refl _)
  refine run_feeds hf h (fun t ht => ?_) (by simp only [fuel]; omega)
  rw [hl t (by simp [ht]), List.append_nil]
  simp only [State.feed, State.feedStatement, ht, List.reverse_reverse]

/-- **The parser accepts exactly the programs of the grammar**, each with its tree, and a sequence
of kinds has no other tree. -/
theorem parse_eq_ok_iff {ts : List Token} (h : ∃ t ∈ ts, t.kind = .finish) (root : Node) :
    (parse ts = some (.ok root) ↔ Program (content ts) root) ∧
      (Program (content ts) root → ∀ root', Program (content ts) root' → root' = root) := by
  refine ⟨⟨program_of_parse h, parse_of_program h⟩, fun hp root' hp' => ?_⟩
  have heq := (parse_of_program h hp').symm.trans (parse_of_program h hp)
  injection heq with heq
  injection heq

/-- `x = 1 - y - 2 * -3;` is a program with one tree, whatever stands after its end. -/
theorem program_of_two_subtractions :
    let ks : List TokenKind := [.name "x", .mark .assign, .number 1, .mark .minus, .name "y",
      .mark .minus, .number 2, .mark .star, .mark .minus, .number 3, .mark .semicolon]
    let root : Node := .block [.assign "x" (.binary .sub
      (.binary .sub (.number 1) (.var "y")) (.binary .mul (.number 2) (.number (-3))))]
    Program ks root ∧ ∀ root', Program ks root' → root' = root := by
  intro ks root
  let ts : List Token := (ks ++ [TokenKind.finish, .mark .closeParen]).map (Token.mk · .empty)
  have hfin : ∃ t ∈ ts, t.kind = .finish := ⟨⟨.finish, .empty⟩, by decide, rfl⟩
  have h := parse_eq_ok_iff hfin root
  have hcontent : content ts = ks := rfl
  have hsub : Expression .equality _ (.binary .sub (.binary .sub (.number 1) (.var "y"))
      (.binary .mul (.number 2) (.number (-3)))) :=
    .tighter (.tighter (.operation .sub
      (.operation .sub (.tighter (.tighter (.tighter .number))) (.tighter (.tighter .name)))
      (.operation .mul (.tighter (.tighter .number)) (.minusNumber (.tighter .number)))))
  have hprogram : Program ks root := ⟨_, .cons (.assign hsub) .nil, rfl⟩
  rw [hcontent] at h
  exact ⟨hprogram, h.2 hprogram⟩

end Treewalk
