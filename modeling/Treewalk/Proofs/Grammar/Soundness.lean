import Treewalk.Parse.Program
import Treewalk.Proofs.Grammar.Rules

/-!
# Grammar — What the parser has read

The parser's state says which kinds of tokens lie behind it: `Reached s ks` holds when `ks` are, in
order, the statements before each open block with the head of that block, the finished statements
of the innermost one, and the part of a statement that the goal has got to.  One token keeps this
(`Reached.feed`), so the tree that ends a run is a tree of what was read.

Inside an expression, `Opened ws ks` says what waits: minus signs, open parentheses, and operators
with their left operands.  Below an operator stands nothing that binds at least as tightly
(`Firm`), which is why applying the operators from the inside out makes each level associate to the
left (`reduce_sound`).
-/

namespace Treewalk

/-! ### Operators and ranks -/

theorem Operator.level_le (op : Operator) : op.level ≤ 4 := by
  cases op <;> decide

theorem Operator.ofKind?_eq_some_iff {k : TokenKind} {op : Operator} :
    ofKind? k = some op ↔ k = .mark op.mark := by
  constructor
  · intro h
    unfold ofKind? at h
    split at h <;> cases h <;> rfl
  · rintro rfl
    cases op <;> rfl

namespace Grammar

/-- The place of a rank in the order; the operators of a rank have it for their level. -/
def Rank.level : Rank → Nat
  | equality => 1
  | comparison => 2
  | additive => 3
  | multiplicative => 4
  | unary => 5
  | primary => 6

theorem level_rank (op : Operator) : (rank op).level = op.level := by
  cases op <;> rfl

theorem level_tighter_rank (op : Operator) : (rank op).tighter.level = op.level + 1 := by
  cases op <;> rfl

theorem Rank.level_tighter {r : Rank} (h : r.level < 6) : r.tighter.level = r.level + 1 := by
  cases r with
  | primary => exact absurd h (Nat.lt_irrefl 6)
  | _ => rfl

theorem Rank.level_le (r : Rank) : r.level ≤ 6 := by
  cases r <;> decide

theorem Rank.level_le_tighter (r : Rank) : r.level ≤ r.tighter.level := by
  cases r <;> decide

theorem Rank.eq_of_level {r r' : Rank} (h : r.level = r'.level) : r = r' := by
  cases r <;> cases r' <;> first | rfl | cases h

/-- An expression is also one of every looser rank. -/
theorem Expression.loosen {r r' : Rank} {ks : List TokenKind} {e : Node}
    (he : Expression r ks e) (h : r'.level ≤ r.level) : Expression r' ks e := by
  obtain ⟨n, hn⟩ := Nat.exists_eq_add_of_le h
  induction n generalizing r' with
  | zero => exact Rank.eq_of_level hn ▸ he
  | succ n ih =>
      have ht : r'.tighter.level = r'.level + 1 := Rank.level_tighter (by have := r.level_le; omega)
      exact .tighter (ih (by omega) (by omega))

theorem Expression.negate {ks : List TokenKind} {e : Node} (he : Expression .unary ks e) :
    Expression .unary (.mark .minus :: ks) e.negate := by
  cases e with
  | number n => exact .minusNumber he
  | _ => exact .minus he (fun _ h => nomatch h)

theorem Derives.snoc {ks ls : List TokenKind} {ns ms : List Node}
    (h : Derives .statements ks ns) (hs : Derives .statement ls ms) :
    Derives .statements (ks ++ ls) (ns ++ ms) := by
  generalize hp : Part.statements = p at h
  induction h with
  | nil => simpa using Derives.cons hs .nil
  | cons hk _ _ ih =>
      rw [List.append_assoc, List.append_assoc]
      exact .cons hk (ih rfl)
  | _ => cases hp

/-- One more statement, before a list that is held in reverse. -/
theorem Derives.push {ks ls : List TokenKind} {done : List Node} {n : Node}
    (h : Derives .statements ks done.reverse) (hs : Derives .statement ls [n]) :
    Derives .statements (ks ++ ls) (n :: done).reverse := by
  rw [List.reverse_cons]
  exact h.snoc hs

end Grammar

namespace Parser
open Grammar

/-! ### Inside an expression -/

/-- Nothing that waits is applied before an operator of this level. -/
def Firm (level : Nat) : List Waiting → Prop
  | .negation :: _ => False
  | .operation op _ :: _ => op.level < level
  | .paren :: _ | [] => True

/-- What waits can be applied to an operand of this level. -/
def Fits (level : Nat) : List Waiting → Prop
  | .negation :: _ => 5 ≤ level
  | .operation op _ :: _ => op.level < level
  | .paren :: _ | [] => True

theorem fits_of_le {level : Nat} (h : 5 ≤ level) : ∀ ws : List Waiting, Fits level ws
  | [] | .paren :: _ => trivial
  | .negation :: _ => h
  | .operation op _ :: _ => Nat.lt_of_le_of_lt (Operator.level_le op) h

theorem Firm.fits {level : Nat} : ∀ {ws : List Waiting}, Firm level ws → Fits level ws
  | [], _ | .paren :: _, _ => trivial
  | .operation _ _ :: _, h => h

/-- The kinds that what waits was read from. -/
inductive Opened : List Waiting → List TokenKind → Prop where
  | nil : Opened [] []
  | negation {ws : List Waiting} {ks : List TokenKind} : Opened ws ks →
      Opened (.negation :: ws) (ks ++ [.mark .minus])
  | paren {ws : List Waiting} {ks : List TokenKind} : Opened ws ks →
      Opened (.paren :: ws) (ks ++ [.mark .openParen])
  | operation {op : Operator} {l : Node} {ws : List Waiting} {ks ls : List TokenKind} :
      Opened ws ks → Firm op.level ws → Expression (rank op) ls l →
      Opened (.operation op l :: ws) (ks ++ (ls ++ [.mark op.mark]))

/-- **Applying what waits reads nothing anew.**  The kinds stay the same; what goes on waiting is
firm, and the operand is an expression of the level. -/
theorem reduce_sound {level : Nat} {ws : List Waiting} {ks : List TokenKind}
    (ho : Opened ws ks) (hlevel : level ≤ 4) {r : Rank} {us : List TokenKind} {e : Node}
    (he : Expression r us e) (hf : Fits r.level ws) (hl : level ≤ r.level) :
    ∃ ks' us' r', ks ++ us = ks' ++ us' ∧ Opened (reduce Node.negate level ws e).1 ks' ∧
      Expression r' us' (reduce Node.negate level ws e).2 ∧ level ≤ r'.level ∧
      Firm level (reduce Node.negate level ws e).1 := by
  induction ho generalizing r us e with
  | nil => exact ⟨[], us, r, rfl, .nil, he, hl, trivial⟩
  | @paren ws ks ho ih => exact ⟨_, us, r, rfl, .paren ho, he, hl, trivial⟩
  | @negation ws ks ho ih =>
      -- A minus sign takes the operand as it stands, before any operator does.
      have hunary : Expression .unary us e := he.loosen hf
      obtain ⟨ks', us', r', hk, h⟩ := ih hunary.negate (fits_of_le (Nat.le_refl 5) ws)
        (by rw [Rank.level]; omega)
      exact ⟨ks', us', r', by simp [← hk], h⟩
  | @operation op l ws ks ls ho hfirm hleft ih =>
      rw [reduce]
      split
      · next hle =>
        -- What waits below `op` binds less tightly, so the operation fits it as an operand.
        have hright : Expression (rank op).tighter us e :=
          he.loosen (by rw [level_tighter_rank]; exact hf)
        obtain ⟨ks', us', r', hk, h⟩ := ih (.operation op hleft hright)
          (by rw [level_rank]; exact hfirm.fits) (by rw [level_rank]; exact hle)
        exact ⟨ks', us', r', by simp [← hk], h⟩
      · next hlt =>
        exact ⟨_, us, r, rfl, .operation ho hfirm hleft, he, hl, Nat.lt_of_not_le hlt⟩

/-! ### Inside a statement -/

/-- The kinds of the arms of an `if` statement that lie behind, each up to its `else`. -/
inductive Chained : Chain → List TokenKind → Prop where
  | nil : Chained [] []
  | cons {chain : Chain} {c : Node} {yes : List Node} {cs ks ys : List TokenKind} :
      Chained chain cs → Expression .equality ks c → Derives .block ys yes →
      Chained ((c, yes) :: chain) (cs ++ (condition .branch ks ++ (ys ++ [.keyword .otherwise])))

/-- The kinds of a statement before the brace that opens its block. -/
inductive Heads : Body → List TokenKind → Prop where
  | yes {chain : Chain} {c : Node} {cs ks : List TokenKind} : Chained chain cs →
      Expression .equality ks c → Heads (.yes chain c) (cs ++ condition .branch ks)
  | no {chain : Chain} {c : Node} {yes : List Node} {cs : List TokenKind} :
      Chained ((c, yes) :: chain) cs → Heads (.no chain c yes) cs
  | loop {c : Node} {ks : List TokenKind} : Expression .equality ks c →
      Heads (.loop c) (condition .loop ks)

/-- The kinds before the parenthesis that an expression for this purpose stands in. -/
inductive Keyed : Purpose → List TokenKind → Prop where
  | print : Keyed .print [.keyword .print]
  | branch {chain : Chain} {cs : List TokenKind} : Chained chain cs →
      Keyed (.branch chain) (cs ++ [.keyword .branch])
  | loop : Keyed .loop [.keyword .loop]

/-- The kinds before an expression for this purpose. -/
inductive Begins : Purpose → List TokenKind → Prop where
  | assign {x : String} : Begins (.assign x) [.name x, .mark .assign]
  | keyed {p : Purpose} {ks : List TokenKind} : Keyed p ks → Begins p (ks ++ [.mark .openParen])

/-- The kinds of the statement that the goal belongs to, as far as they were read. -/
inductive Partly : Goal → List TokenKind → Prop where
  | statement : Partly .statement []
  | assignMark {x : String} : Partly (.assignMark x) [.name x]
  | inputName : Partly .inputName [.keyword .input]
  | inputEnd {x : String} : Partly (.inputEnd x) [.keyword .input, .name x]
  | openParen {p : Purpose} {ks : List TokenKind} : Keyed p ks → Partly (.openParen p) ks
  | operand {p : Purpose} {ws : List Waiting} {bs ks : List TokenKind} : Begins p bs →
      Opened ws ks → Partly (.operand p ws) (bs ++ ks)
  | operator {p : Purpose} {ws : List Waiting} {e : Node} {bs ks us : List TokenKind} :
      Begins p bs → Opened ws ks → Expression .primary us e →
      Partly (.operator p ws e) (bs ++ (ks ++ us))
  | printEnd {e : Node} {ks : List TokenKind} : Expression .equality ks e →
      Partly (.printEnd e) (condition .print ks)
  | openBrace {b : Body} {hs : List TokenKind} : Heads b hs → Partly (.openBrace b) hs
  | orElse {chain : Chain} {c : Node} {yes : List Node} {cs ks ys : List TokenKind} :
      Chained chain cs → Expression .equality ks c → Derives .block ys yes →
      Partly (.orElse chain c yes) (cs ++ (condition .branch ks ++ ys))
  | elseBody {chain : Chain} {c : Node} {yes : List Node} {cs : List TokenKind} :
      Chained ((c, yes) :: chain) cs → Partly (.elseBody chain c yes) cs

/-! ### The whole state -/

/-- The kinds up to the brace that opens the innermost block. -/
inductive Enclosed : List (Body × List Node) → List TokenKind → Prop where
  | nil : Enclosed [] []
  | cons {b : Body} {before : List Node} {outer : List (Body × List Node)}
      {os ds hs : List TokenKind} : Enclosed outer os → Derives .statements ds before.reverse →
      Heads b hs → Enclosed ((b, before) :: outer) (os ++ (ds ++ (hs ++ [.mark .openBrace])))

/-- The kinds that lie behind the state. -/
inductive Reached : State → List TokenKind → Prop where
  | intro {g : Goal} {done : List Node} {outer : List (Body × List Node)}
      {os ds ps : List TokenKind} : Enclosed outer os → Derives .statements ds done.reverse →
      Partly g ps → Reached ⟨g, done, outer⟩ (os ++ (ds ++ ps))

theorem reached_start : Reached .start [] :=
  have hd : Derives .statements [] ([] : List Node).reverse := .nil
  Reached.intro .nil hd .statement

/-- The goal alone moves on. -/
theorem Reached.toward {g g' : Goal} {done : List Node} {outer : List (Body × List Node)}
    {os ds ps : List TokenKind} {k : TokenKind} (ho : Enclosed outer os)
    (hd : Derives .statements ds done.reverse) (hp : Partly g' (ps ++ [k])) :
    Reached (State.toward ⟨g, done, outer⟩ g') (os ++ (ds ++ ps) ++ [k]) := by
  have h := Reached.intro ho hd hp
  rwa [← List.append_assoc ds, ← List.append_assoc os] at h

/-- A statement is complete. -/
theorem Reached.finish {g : Goal} {done : List Node} {outer : List (Body × List Node)} {n : Node}
    {os ds ps : List TokenKind} (ho : Enclosed outer os)
    (hd : Derives .statements ds done.reverse) (hs : Derives .statement ps [n]) :
    Reached (State.finish ⟨g, done, outer⟩ n) (os ++ (ds ++ ps)) := by
  have h := Reached.intro ho (hd.push hs) .statement
  rwa [List.append_nil] at h

/-- The arms behind and what the last `else` leads to are one statement. -/
theorem Chained.close {chain : Chain} {cs : List TokenKind} (hc : Chained chain cs)
    {ks : List TokenKind} {n : Node} (h : Derives .conditional ks [n]) :
    Derives .conditional (cs ++ ks) [chain.close n] := by
  induction hc generalizing ks n with
  | nil => exact h
  | @cons chain c yes cs ks ys _ he hy ih =>
      have h' : Derives .conditional _ [Chain.close ((c, yes) :: chain) n] :=
        ih (.elseIf he hy h)
      simpa using h'

theorem alike_mark_iff {k : TokenKind} {m : Mark} : k.alike (.mark m) = true ↔ k = .mark m := by
  constructor
  · intro h
    cases k with
    | mark n => exact congrArg _ (beq_iff_eq.mp h)
    | _ => exact Bool.noConfusion h
  · rintro rfl
    exact beq_self_eq_true m

/-- What one token leads to agrees with what was read. -/
def Agrees (ks : List TokenKind) (k : TokenKind) : Step → Prop
  | .next s => Reached s (ks ++ [k])
  | .accept root => k = .finish ∧ Program ks root

theorem State.demand_ok {t : Token} {m : Mark} (h : t.kind = .mark m) (c : Construct)
    (s : State) : State.demand t m c s = .ok (.next s) := by
  rw [State.demand, Token.demand, if_pos (alike_mark_iff.mpr h)]

theorem State.demand_eq_ok {t : Token} {m : Mark} {c : Construct} {s : State} {st : Step}
    (h : State.demand t m c s = .ok st) : t.kind = .mark m ∧ st = .next s := by
  by_cases hk : t.kind = .mark m
  · rw [State.demand_ok hk] at h
    exact ⟨hk, (Except.ok.inj h).symm⟩
  · rw [State.demand, Token.demand, if_neg (mt alike_mark_iff.mp hk)] at h
    cases h

/-- A block opens. -/
theorem Reached.enter {g : Goal} {done : List Node} {outer : List (Body × List Node)} {b : Body}
    {os ds hs : List TokenKind} (ho : Enclosed outer os)
    (hd : Derives .statements ds done.reverse) (hh : Heads b hs) :
    Reached (State.enter ⟨g, done, outer⟩ b) (os ++ (ds ++ (hs ++ [.mark .openBrace]))) := by
  have hnil : Derives .statements [] ([] : List Node).reverse := .nil
  have h := Reached.intro (.cons ho hd hh) hnil .statement
  rwa [List.append_nil, List.append_nil] at h

/-- A block closes: its statements and its head are part of the statement that it belongs to. -/
theorem Reached.leave {g : Goal} {done : List Node} {b : Body} {before : List Node}
    {outer : List (Body × List Node)} {os ds : List TokenKind}
    (ho : Enclosed ((b, before) :: outer) os) (hd : Derives .statements ds done.reverse) :
    Reached (State.leave ⟨g, done, (b, before) :: outer⟩ b before outer)
      (os ++ ds ++ [.mark .closeBrace]) := by
  cases ho with
  | @cons _ _ _ os bs hs ho hb hh =>
      have hblock := Derives.block hd
      cases hh with
      | @yes chain c cs ks hc he =>
          have h := Reached.intro ho hb (.orElse hc he hblock)
          simpa [State.leave] using h
      | no hc =>
          cases hc with
          | cons hc he hy =>
              have h := Reached.finish (g := .statement) ho hb
                (.conditional (hc.close (.ifElse he hy hblock)))
              simpa [State.leave] using h
      | loop he =>
          have h := Reached.finish (g := .statement) ho hb (.loop he hblock)
          simpa [State.leave] using h

theorem Reached.feedStatement {done : List Node} {outer : List (Body × List Node)}
    {os ds : List TokenKind} (ho : Enclosed outer os) (hd : Derives .statements ds done.reverse)
    {g : Goal} {t : Token} {st : Step} (h : State.feedStatement ⟨g, done, outer⟩ t = .ok st) :
    Agrees (os ++ ds) t.kind st := by
  -- Where a statement may begin, nothing of it has been read yet.
  have begin : ∀ {g' : Goal}, Partly g' [t.kind] →
      Reached (State.toward ⟨g, done, outer⟩ g') (os ++ ds ++ [t.kind]) := fun hp => by
    rw [List.append_assoc]
    exact .intro ho hd hp
  unfold State.feedStatement at h
  split at h
  · next x hk => cases h; exact begin (hk ▸ .assignMark)
  · next hk => cases h; exact begin (hk ▸ .inputName)
  · next hk => cases h; exact begin (hk ▸ .openParen .print)
  · next hk => cases h; exact begin (hk ▸ .openParen (.branch .nil))
  · next hk => cases h; exact begin (hk ▸ .openParen .loop)
  · next hk houter =>
    cases h
    cases houter
    rw [hk]
    exact Reached.leave ho hd
  · next hk houter =>
    cases h
    cases houter
    cases ho
    exact ⟨hk, _, hd, rfl⟩
  · cases h
  · cases h

theorem Reached.feedOperand {g : Goal} {done : List Node} {outer : List (Body × List Node)}
    {os ds bs ks : List TokenKind} (ho : Enclosed outer os)
    (hd : Derives .statements ds done.reverse) {p : Purpose} {ws : List Waiting}
    (hb : Begins p bs) (hw : Opened ws ks) {t : Token} {st : Step}
    (h : State.feedOperand ⟨g, done, outer⟩ p ws t = .ok st) :
    Agrees (os ++ (ds ++ (bs ++ ks))) t.kind st := by
  have more : ∀ {ws' : List Waiting}, Opened ws' (ks ++ [t.kind]) →
      Reached (State.toward ⟨g, done, outer⟩ (.operand p ws'))
        (os ++ (ds ++ (bs ++ ks)) ++ [t.kind]) := fun hw' => by
    have hp := Partly.operand hb hw'
    rw [← List.append_assoc] at hp
    exact .toward ho hd hp
  have leaf : ∀ {e : Node}, Expression .primary [t.kind] e →
      Reached (State.toward ⟨g, done, outer⟩ (.operator p ws e))
        (os ++ (ds ++ (bs ++ ks)) ++ [t.kind]) := fun he => by
    have hp := Partly.operator hb hw he
    rw [← List.append_assoc] at hp
    exact .toward ho hd hp
  unfold State.feedOperand at h
  split at h
  · next hk => cases h; exact more (hk ▸ .negation hw)
  · next hk => cases h; exact more (hk ▸ .paren hw)
  · next hk => cases h; exact leaf (hk ▸ .number)
  · next hk => cases h; exact leaf (hk ▸ .text)
  · next hk => cases h; exact leaf (hk ▸ .name)
  · cases h

theorem Reached.feedEnd {g : Goal} {done : List Node} {outer : List (Body × List Node)}
    {os ds bs us : List TokenKind} (ho : Enclosed outer os)
    (hd : Derives .statements ds done.reverse) {p : Purpose} (hb : Begins p bs) {e : Node}
    (he : Expression .equality us e) {t : Token} {st : Step}
    (h : State.feedEnd ⟨g, done, outer⟩ p e t = .ok st) :
    Agrees (os ++ (ds ++ (bs ++ us))) t.kind st := by
  cases p with
  | assign x =>
      obtain ⟨hk, rfl⟩ := State.demand_eq_ok h
      cases hb with
      | assign =>
          have h' := Reached.finish (g := g) ho hd (.assign (x := x) he)
          simpa [Agrees, hk] using h'
      | keyed hq => cases hq
  | print =>
      obtain ⟨hk, rfl⟩ := State.demand_eq_ok h
      cases hb with
      | keyed hq =>
          cases hq
          have h' := Reached.intro ho hd (.printEnd he)
          simpa [Agrees, hk, condition, State.toward] using h'
  | branch chain =>
      obtain ⟨hk, rfl⟩ := State.demand_eq_ok h
      cases hb with
      | keyed hq =>
          cases hq with
          | branch hc =>
              have h' := Reached.intro ho hd (.openBrace (.yes hc he))
              simpa [Agrees, hk, condition, State.toward] using h'
  | loop =>
      obtain ⟨hk, rfl⟩ := State.demand_eq_ok h
      cases hb with
      | keyed hq =>
          cases hq
          have h' := Reached.intro ho hd (.openBrace (.loop he))
          simpa [Agrees, hk, condition, State.toward] using h'

theorem Firm.eq_nil {ws : List Waiting} (h : Firm 0 ws) (hp : ∀ ws', ws ≠ .paren :: ws') :
    ws = [] := by
  match ws, h with
  | [], _ => rfl
  | .paren :: ws', _ => exact absurd rfl (hp ws')
  | .operation _ _ :: _, h => exact absurd h (Nat.not_lt_zero _)

theorem Reached.feedOperator {g : Goal} {done : List Node} {outer : List (Body × List Node)}
    {os ds bs ks us : List TokenKind} (ho : Enclosed outer os)
    (hd : Derives .statements ds done.reverse) {p : Purpose} {ws : List Waiting} {e : Node}
    (hb : Begins p bs) (hw : Opened ws ks) (he : Expression .primary us e) {t : Token}
    {st : Step} (h : State.feedOperator Node.negate ⟨g, done, outer⟩ p ws e t = .ok st) :
    Agrees (os ++ (ds ++ (bs ++ (ks ++ us)))) t.kind st := by
  have hfits : Fits Rank.primary.level ws := fits_of_le (by decide) ws
  rw [State.feedOperator] at h
  split at h
  · next op hop =>
    -- The operand is complete as far as this operator goes, and becomes its left one.
    have hlevel := Operator.level_le op
    obtain ⟨ks', us', r', hk, hw', he', hle, hfirm⟩ :=
      reduce_sound hw hlevel he hfits (by rw [Rank.level]; omega)
    cases h
    rw [hk, Operator.ofKind?_eq_some_iff.mp hop]
    have hleft : Expression (rank op) us' _ := he'.loosen (by rw [level_rank]; exact hle)
    have h' := Reached.intro ho hd (.operand hb (.operation hw' hfirm hleft))
    simpa [Agrees, State.toward] using h'
  · obtain ⟨ks', us', r', hk, hw', he', -, hfirm⟩ :=
      reduce_sound hw (Nat.zero_le 4) he hfits (Nat.zero_le _)
    -- No operator follows, so all is applied that waits above the innermost parenthesis.
    have heq : Expression .equality us' _ := he'.loosen (by cases r' <;> decide)
    rw [hk]
    split at h
    · next ws' e' hred =>
      rw [hred] at hw' heq
      obtain ⟨hclose, rfl⟩ := State.demand_eq_ok h
      cases hw' with
      | paren hw' =>
          have h' := Reached.intro ho hd (.operator hb hw' (.parens heq))
          simpa [Agrees, State.toward, hclose] using h'
    · next ws' e' hno hred =>
      rw [hred] at hw' heq hfirm
      obtain rfl : ws' = [] := hfirm.eq_nil fun ws'' h'' => hno ws'' h''
      cases hw'
      exact Reached.feedEnd ho hd hb heq h

/-- **One token keeps what was read.** -/
theorem Reached.feed {s : State} {ks : List TokenKind} (hs : Reached s ks) {t : Token}
    {st : Step} (h : s.feed Node.negate t = .ok st) : Agrees ks t.kind st := by
  cases hs with
  | @intro g done outer os ds ps ho hd hp =>
      cases hp with
      | statement =>
          rw [List.append_nil]
          exact Reached.feedStatement ho hd h
      | @assignMark x =>
          obtain ⟨hk, rfl⟩ := State.demand_eq_ok h
          have h' := Reached.intro ho hd (.operand (.assign (x := x)) .nil)
          simpa [Agrees, State.toward, hk] using h'
      | inputName =>
          simp only [State.feed, Token.demandName] at h
          split at h
          · next x hx =>
            split at hx
            · next y hk =>
              cases h
              cases hx
              have h' := Reached.intro ho hd (.inputEnd (x := x))
              simpa [Agrees, State.toward, hk] using h'
            · cases hx
          · cases h
      | @inputEnd x =>
          obtain ⟨hk, rfl⟩ := State.demand_eq_ok h
          have h' := Reached.finish (g := .inputEnd x) ho hd (.input (x := x))
          simpa [Agrees, hk] using h'
      | openParen hq =>
          obtain ⟨hk, rfl⟩ := State.demand_eq_ok h
          have h' := Reached.intro ho hd (.operand (.keyed hq) .nil)
          simpa [Agrees, State.toward, hk] using h'
      | operand hb hw => exact Reached.feedOperand ho hd hb hw h
      | operator hb hw he => exact Reached.feedOperator ho hd hb hw he h
      | @printEnd e us he =>
          obtain ⟨hk, rfl⟩ := State.demand_eq_ok h
          have h' := Reached.finish (g := .printEnd e) ho hd (.print he)
          simpa [Agrees, hk] using h'
      | openBrace hh =>
          obtain ⟨hk, rfl⟩ := State.demand_eq_ok h
          simpa [Agrees, hk] using Reached.enter ho hd hh
      | @orElse chain c yes cs us ys hc he hy =>
          simp only [State.feed] at h
          split at h
          · next hk =>
            cases h
            have h' := Reached.intro ho hd (.elseBody (.cons hc he hy))
            simpa [Agrees, State.toward, hk] using h'
          · -- Without `else` the statement has been complete, and the token belongs to the next.
            exact Reached.feedStatement ho
              (hd.push (.conditional (hc.close (.ifOnly he hy)))) h
      | elseBody hc =>
          simp only [State.feed] at h
          split at h
          · next hk =>
            cases h
            have h' := Reached.intro ho hd (.openParen (.branch hc))
            simpa [Agrees, State.toward, hk] using h'
          · obtain ⟨hk, rfl⟩ := State.demand_eq_ok h
            simpa [Agrees, hk] using Reached.enter ho hd (.no hc)

end Parser

end Treewalk
