import Treewalk.Proofs.Grammar.Refusals

/-!
# Grammar — Beginnings of programs

A program that breaks off ends at a place where a statement may begin, inside some number of open
blocks (`Boundary`), or inside a statement that has begun and is not complete (`Innermost`).  Both
are told by the rules of the grammar alone: complete statements, the heads of the open blocks, and
what a statement begins with while none of its blocks is open (`Begun`).

The parser's state agrees with them.  What was read says where its goal belongs
(`Reached.boundary`, `Reached.innermost`); and the parser follows both beginnings to such a goal
(`feeds_boundary`, `feeds_begun`), because inside a statement only a semicolon or an opening brace
leads out of it (`State.feed_inside`).

* `boundary_iff`, `innermost_iff`: behind tokens that the parser takes, its goal tells where a
  statement may begin, how many blocks are open, and which statement is the innermost.
-/

namespace Treewalk

namespace Grammar

/-! ### Beginnings of programs -/

/-- The construct of the statement that a kind of token begins. -/
def begins? : TokenKind → Option Construct
  | .name _ => some .assignment
  | .keyword .input => some .input
  | .keyword .print => some .print
  | .keyword .branch => some .branch
  | .keyword .loop => some .loop
  | _ => none

/-- Some expression begins with the kinds. -/
def BeginsExpression (us : List TokenKind) : Prop := ∃ vs e, Expression .equality (us ++ vs) e

/-- Arms of an `if` statement one after another, each up to its `else`. -/
inductive Arms : List TokenKind → Prop where
  | nil : Arms []
  | snoc {as ks ys : List TokenKind} {c : Node} {yes : List Node} : Arms as →
      Expression .equality ks c → Derives .block ys yes →
      Arms (as ++ (condition .branch ks ++ (ys ++ [.keyword .otherwise])))

/-- The kinds of a statement before its parenthesis: the keyword, and in an `if` statement the arms
before it. -/
inductive Leads : Construct → List TokenKind → Prop where
  | print : Leads .print [.keyword .print]
  | branch {as : List TokenKind} : Arms as → Leads .branch (as ++ [.keyword .branch])
  | loop : Leads .loop [.keyword .loop]

/-- The kinds of a statement before the brace that opens one of its blocks. -/
inductive BlockHead : Construct → List TokenKind → Prop where
  | condition {c : Construct} {ls ks : List TokenKind} {e : Node} : Leads c ls → c ≠ .print →
      Expression .equality ks e →
      BlockHead c (ls ++ .mark .openParen :: (ks ++ [.mark .closeParen]))
  | otherwise {as : List TokenKind} : Arms as → as ≠ [] → BlockHead .branch as

/-- `Begun c us`: a statement of construct `c` has begun with the kinds and is not complete, and
none of its blocks is open. -/
inductive Begun : Construct → List TokenKind → Prop where
  | name {x : String} : Begun .assignment [.name x]
  | value {x : String} {us : List TokenKind} : BeginsExpression us →
      Begun .assignment (.name x :: .mark .assign :: us)
  | input : Begun .input [.keyword .input]
  | target {x : String} : Begun .input [.keyword .input, .name x]
  | lead {c : Construct} {ls : List TokenKind} : Leads c ls → Begun c ls
  | inner {c : Construct} {ls us : List TokenKind} : Leads c ls → BeginsExpression us →
      Begun c (ls ++ .mark .openParen :: us)
  | printed {ks : List TokenKind} {e : Node} : Expression .equality ks e →
      Begun .print (condition .print ks)
  | head {c : Construct} {hs : List TokenKind} : BlockHead c hs → Begun c hs

/-- `Boundary depth ks`: behind the kinds a statement may begin, inside `depth` open blocks. -/
inductive Boundary : Nat → List TokenKind → Prop where
  | top {ks : List TokenKind} {ns : List Node} : Derives .statements ks ns → Boundary 0 ks
  | block {depth : Nat} {c : Construct} {ps hs ks : List TokenKind} {ns : List Node} :
      Boundary depth ps → BlockHead c hs → Derives .statements ks ns →
      Boundary (depth + 1) (ps ++ (hs ++ .mark .openBrace :: ks))

/-- Of the statements that have begun in the kinds and are not complete, the innermost is of
construct `c`: it has begun where a statement may begin, and none can be open inside it, because
none of its blocks is open. -/
def Innermost (c : Construct) (ks : List TokenKind) : Prop :=
  ∃ depth ps us, Boundary depth ps ∧ Begun c us ∧ ks = ps ++ us

theorem Boundary.append {depth : Nat} {ps ks : List TokenKind} {ns : List Node}
    (h : Boundary depth ps) (hs : Derives .statement ks ns) : Boundary depth (ps ++ ks) := by
  cases h with
  | top hd => exact .top (hd.snoc hs)
  | block hp hh hd =>
      have h := Boundary.block hp hh (hd.snoc hs)
      simpa using h

end Grammar

namespace Parser
open Grammar

/-- The construct of the statement that the goal belongs to, and none where a statement may
begin. -/
def Goal.construct? : Goal → Option Construct
  | .statement | .orElse _ _ _ => none
  | .assignMark _ => some .assignment
  | .inputName | .inputEnd _ => some .input
  | .openParen p | .operand p _ | .operator p _ _ => some p.construct
  | .printEnd _ => some .print
  | .openBrace b => some b.construct
  | .elseBody _ _ _ => some .branch

/-! ### What was read -/

theorem Chained.arms {chain : Chain} {cs : List TokenKind} (h : Chained chain cs) : Arms cs := by
  induction h with
  | nil => exact .nil
  | cons _ he hy ih => exact .snoc ih he hy

theorem Keyed.leads {p : Purpose} {ks : List TokenKind} (h : Keyed p ks) :
    Leads p.construct ks := by
  cases h with
  | print => exact .print
  | branch hc => exact .branch hc.arms
  | loop => exact .loop

/-- An operand behind what waits, with the open parentheses closed, is a whole expression. -/
theorem Opened.closes {ws : List Waiting} {ks : List TokenKind} (ho : Opened ws ks)
    {us : List TokenKind} {e : Node} (he : Expression .primary us e) :
    ∃ e', Expression .equality (ks ++ (us ++ closing ws)) e' := by
  generalize hcs : closing ws = cs
  induction cs generalizing ws ks us e with
  | nil =>
      obtain ⟨ks', us', r', hk, hw', he', -⟩ := reduce_sound ho (Nat.zero_le 4) he
        (fits_of_le (by decide) ws) (Nat.zero_le _)
      obtain ⟨e', hred, -⟩ | ⟨ws', e', -, hc⟩ := closing_reduce Node.negate ws e
      · rw [hred] at hw' he'
        cases hw'
        rw [List.append_nil, hk, List.nil_append]
        exact ⟨e', he'.loosen (by cases r' <;> decide)⟩
      · cases hcs.symm.trans hc
  | cons k cs ih =>
      obtain ⟨ks', us', r', hk, hw', he', -⟩ := reduce_sound ho (Nat.zero_le 4) he
        (fits_of_le (by decide) ws) (Nat.zero_le _)
      obtain ⟨e', -, hc⟩ | ⟨ws', e', hred, hc⟩ := closing_reduce Node.negate ws e
      · cases hcs.symm.trans hc
      · obtain ⟨rfl, hclosing⟩ := List.cons.inj (hcs.symm.trans hc)
        rw [hred] at hw' he'
        cases hw' with
        | @paren _ ks'' hw' =>
            -- The innermost parenthesis is closed, and what stood in it is an operand again.
            have hinner : Expression .equality us' e' := he'.loosen (by cases r' <;> decide)
            obtain ⟨e'', h⟩ := ih hw' (.parens hinner) hclosing.symm
            refine ⟨e'', ?_⟩
            rw [← List.append_assoc, hk]
            simpa using h

theorem Opened.begins_operator {ws : List Waiting} {ks us : List TokenKind} {e : Node}
    (ho : Opened ws ks) (he : Expression .primary us e) : BeginsExpression (ks ++ us) := by
  obtain ⟨e', h⟩ := ho.closes he
  rw [← List.append_assoc] at h
  exact ⟨_, e', h⟩

theorem Opened.begins_operand {ws : List Waiting} {ks : List TokenKind} (ho : Opened ws ks) :
    BeginsExpression ks := by
  obtain ⟨e', h⟩ := ho.closes (.number (n := 0))
  exact ⟨_, e', h⟩

/-- A statement has begun before every expression, and goes on with the beginning of one. -/
theorem Begins.begun {p : Purpose} {bs us : List TokenKind} (hb : Begins p bs)
    (hu : BeginsExpression us) : Begun p.construct (bs ++ us) := by
  cases hb with
  | assign => exact .value hu
  | keyed hk =>
      rw [List.append_assoc]
      exact .inner hk.leads hu

theorem Chained.ne_nil {arm : Node × List Node} {chain : Chain} {cs : List TokenKind}
    (h : Chained (arm :: chain) cs) : cs ≠ [] := by
  cases h with
  | cons => simp [condition]

theorem Heads.blockHead {b : Body} {hs : List TokenKind} (h : Heads b hs) :
    BlockHead b.construct hs := by
  cases h with
  | @yes chain c cs ks hc he =>
      have h := BlockHead.condition (.branch hc.arms) (by decide) he
      rwa [List.append_assoc] at h
  | no hc => exact .otherwise hc.arms hc.ne_nil
  | loop he => exact .condition .loop (by decide) he

/-- Inside a statement, what was read of it has begun it. -/
theorem Partly.begun {g : Goal} {ps : List TokenKind} (h : Partly g ps) {c : Construct}
    (hc : g.construct? = some c) : Begun c ps := by
  cases h with
  | statement | orElse => cases hc
  | assignMark => cases hc; exact .name
  | inputName => cases hc; exact .input
  | inputEnd => cases hc; exact .target
  | openParen hk => cases hc; exact .lead hk.leads
  | operand hb ho => cases hc; exact hb.begun ho.begins_operand
  | operator hb ho he => cases hc; exact hb.begun (ho.begins_operator he)
  | printEnd he => cases hc; exact .printed he
  | openBrace hh => cases hc; exact .head hh.blockHead
  | elseBody hch => cases hc; exact .head (.otherwise hch.arms hch.ne_nil)

theorem Enclosed.boundary {outer : List (Body × List Node)} {os : List TokenKind}
    (ho : Enclosed outer os) : ∀ {ds : List TokenKind} {ns : List Node},
      Derives .statements ds ns → Boundary outer.length (os ++ ds) := by
  induction ho with
  | nil => exact fun hd => .top hd
  | cons _ hb hh ih =>
      intro ds ns hd
      have h := Boundary.block (ih hb) hh.blockHead hd
      simpa using h

/-- Between two statements, what was read ends where a statement may begin. -/
theorem Reached.boundary {s : State} {ks : List TokenKind} (h : Reached s ks)
    (hs : s.goal.construct? = none) : Boundary s.outer.length ks := by
  cases h with
  | @intro g done outer os ds ps ho hd hp =>
      have hb := ho.boundary hd
      rw [← List.append_assoc]
      cases hp with
      | statement => simpa using hb
      | orElse hc he hy => exact hb.append (.conditional (hc.close (.ifOnly he hy)))
      | _ => cases hs

/-- Inside a statement, that one is the innermost of what was read. -/
theorem Reached.innermost {s : State} {ks : List TokenKind} (h : Reached s ks) {c : Construct}
    (hs : s.goal.construct? = some c) : Innermost c ks := by
  cases h with
  | @intro g done outer os ds ps ho hd hp =>
      exact ⟨_, _, _, ho.boundary hd, hp.begun hs, (List.append_assoc ..).symm⟩

/-! ### One token inside a statement -/

/-- A kind that does not lead out of a statement. -/
def Inside (k : TokenKind) : Prop := k ≠ .mark .semicolon ∧ k ≠ .mark .openBrace

theorem inside_expression {r : Rank} {ks : List TokenKind} {e : Node} (h : Expression r ks e) :
    ∀ k ∈ ks, Inside k := by
  induction h with
  | number | text | name => simp [Inside]
  | parens _ ih => simpa [Inside, or_imp, forall_and] using ih
  | minusNumber _ ih | minus _ _ ih => simpa [Inside, or_imp, forall_and] using ih
  | operation op _ _ ihl ihr =>
      have hop : Inside (.mark op.mark) := by cases op <;> simp [Inside, Operator.mark]
      intro k hk
      rcases List.mem_append.mp hk with hk | hk
      · exact ihl k hk
      · rcases List.mem_cons.mp hk with rfl | hk
        · exact hop
        · exact ihr k hk
  | tighter _ ih => exact ih

variable {negate : Node → Node} {s s' : State} {t : Token} {c : Construct}

theorem Inside.of_demand {m : Mark} {d : Construct} (ht : Inside t.kind)
    (h : State.demand t m d s = .ok (.next s')) : (m ≠ .semicolon ∧ m ≠ .openBrace) ∧ s' = s := by
  obtain ⟨hk, hs⟩ := State.demand_eq_ok h
  rw [Inside, hk] at ht
  exact ⟨⟨fun h => ht.1 (congrArg _ h), fun h => ht.2 (congrArg _ h)⟩, Step.next.inj hs⟩

/-- **Only a semicolon or an opening brace leads out of a statement.** -/
theorem State.feed_inside (hc : s.goal.construct? = some c) (ht : Inside t.kind)
    (h : s.feed negate t = .ok (.next s')) : s'.goal.construct? = some c := by
  obtain ⟨g, done, outer⟩ := s
  cases g with
  | statement | orElse => cases hc
  | assignMark | openParen =>
      obtain ⟨-, rfl⟩ := ht.of_demand h
      exact hc
  | inputEnd | printEnd | openBrace =>
      obtain ⟨hm, -⟩ := ht.of_demand h
      simp at hm
  | inputName =>
      simp only [State.feed] at h
      split at h <;> cases h
      exact hc
  | operand p ws =>
      simp only [State.feed, State.feedOperand] at h
      split at h <;> cases h <;> exact hc
  | operator p ws e =>
      simp only [State.feed, State.feedOperator] at h
      split at h
      · cases h
        exact hc
      · split at h
        · obtain ⟨-, rfl⟩ := ht.of_demand h
          exact hc
        · cases p with
          | assign x =>
              obtain ⟨hm, -⟩ := ht.of_demand h
              simp at hm
          | print | branch chain | loop =>
              obtain ⟨-, rfl⟩ := ht.of_demand h
              exact hc
  | elseBody chain cond yes =>
      simp only [State.feed] at h
      split at h
      · cases h
        exact hc
      · obtain ⟨hm, -⟩ := ht.of_demand h
        simp at hm

/-! ### Following what is open -/

theorem Feeds.split {ks ls : List TokenKind} : ∀ {s : State}, Feeds s (ks ++ ls) s' →
    ∃ s₁, Feeds s ks s₁ ∧ Feeds s₁ ls s' := by
  induction ks with
  | nil => exact fun h => ⟨_, .nil, h⟩
  | cons k ks ih =>
      intro s h
      cases h with
      | cons hf h =>
          obtain ⟨s₁, h₁, h₂⟩ := ih h
          exact ⟨s₁, .cons hf h₁, h₂⟩

/-- Inside a statement, kinds that do not lead out of it keep to it. -/
theorem Feeds.inside {ks : List TokenKind} (h : Feeds s ks s') (hk : ∀ k ∈ ks, Inside k)
    (hc : s.goal.construct? = some c) : s'.goal.construct? = some c := by
  induction h with
  | nil => exact hc
  | @cons s s₁ s' k ks hf _ ih =>
      have h₁ := State.feed_inside (t := ⟨k, .empty⟩) hc (hk k List.mem_cons_self) (hf _ rfl)
      exact ih (fun l hl => hk l (List.mem_cons_of_mem _ hl)) h₁

/-- The parser follows the beginning of an expression, inside its statement. -/
theorem feeds_beginning {us : List TokenKind} (h : BeginsExpression us) (p : Purpose)
    (done : List Node) (outer : List (Body × List Node)) :
    ∃ s, Feeds ⟨.operand p [], done, outer⟩ us s ∧ s.goal.construct? = some p.construct := by
  obtain ⟨vs, e, he⟩ := h
  obtain ⟨ws', e', hf, -⟩ := feeds_expression he p done outer [] fun _ => trivial
  obtain ⟨s, hs, -⟩ := hf.split
  exact ⟨s, hs, hs.inside (fun k hk => inside_expression he k (List.mem_append_left _ hk)) rfl⟩

section Between

variable {done : List Node} {outer : List (Body × List Node)}

/-- Where a statement may begin, a token that begins one does. -/
theorem Like.begins (hs : Like s ⟨.statement, done, outer⟩) {k : TokenKind}
    (hk : begins? k = some c) {g : Goal}
    (hg : ∀ span, State.feedStatement ⟨.statement, done, outer⟩ ⟨k, span⟩ =
      .ok (.next ⟨g, done, outer⟩)) : Feeds s [k] ⟨g, done, outer⟩ := by
  refine .one fun t ht => ?_
  obtain ⟨k, span⟩ := t
  cases ht
  rw [hs _ (by rintro rfl; cases hk)]
  exact hg span

/-- The parser follows arms of an `if` statement up to the next `if`. -/
theorem feeds_elseIf {as : List TokenKind} (h : Arms as)
    (hs : Like s ⟨.statement, done, outer⟩) :
    ∃ chain, Feeds s (as ++ [.keyword .branch]) ⟨.openParen (.branch chain), done, outer⟩ := by
  induction h with
  | nil => exact ⟨[], hs.begins (c := .branch) rfl fun _ => rfl⟩
  | @snoc as ks ys cond yes _ he hy ih =>
      obtain ⟨chain, hf⟩ := ih
      have hnext : Feeds ⟨.elseBody chain cond yes, done, outer⟩ [.keyword .branch]
          ⟨.openParen (.branch ((cond, yes) :: chain)), done, outer⟩ := .one fun t ht => by
        simp only [State.feed, if_pos ht]
        rfl
      have h := hf.trans (feeds_otherwise he (follows_of_derives hy) hnext)
      exact ⟨_, by simpa [condition] using h⟩

/-- The parser follows arms of an `if` statement up to their last `else`. -/
theorem feeds_arms {as : List TokenKind} (h : Arms as) (hne : as ≠ [])
    (hs : Like s ⟨.statement, done, outer⟩) :
    ∃ chain cond yes, Feeds s as ⟨.elseBody chain cond yes, done, outer⟩ := by
  cases h with
  | nil => exact absurd rfl hne
  | @snoc as ks ys cond yes ha he hy =>
      obtain ⟨chain, hf⟩ := feeds_elseIf ha hs
      have h := hf.trans (feeds_otherwise he (follows_of_derives hy) .nil)
      exact ⟨chain, cond, yes, by simpa [condition] using h⟩

/-- The parser follows a statement up to its parenthesis. -/
theorem feeds_lead {ls : List TokenKind} (h : Leads c ls)
    (hs : Like s ⟨.statement, done, outer⟩) :
    ∃ p, p.construct = c ∧ Feeds s ls ⟨.openParen p, done, outer⟩ := by
  cases h with
  | print => exact ⟨.print, rfl, hs.begins (c := .print) rfl fun _ => rfl⟩
  | branch ha =>
      obtain ⟨chain, hf⟩ := feeds_elseIf ha hs
      exact ⟨.branch chain, rfl, hf⟩
  | loop => exact ⟨.loop, rfl, hs.begins (c := .loop) rfl fun _ => rfl⟩

/-- The parser follows a statement into one of its blocks. -/
theorem feeds_blockHead {hs : List TokenKind} (h : BlockHead c hs)
    (hl : Like s ⟨.statement, done, outer⟩) :
    ∃ g b, g.construct? = some c ∧ Feeds s hs ⟨g, done, outer⟩ ∧
      Feeds ⟨g, done, outer⟩ [.mark .openBrace] ⟨.statement, [], (b, done) :: outer⟩ := by
  cases h with
  | @condition _ ls ks e hlead hne he =>
      obtain ⟨p, rfl, hf⟩ := feeds_lead hlead hl
      obtain ⟨b, hb, hend⟩ : ∃ b : Body, b.construct = p.construct ∧
          ∀ t : Token, t.kind = .mark .closeParen →
            State.feedEnd ⟨.statement, done, outer⟩ p e t =
              .ok (.next ⟨.openBrace b, done, outer⟩) := by
        cases p with
        | assign x => cases hlead
        | print => exact absurd rfl hne
        | branch chain => exact ⟨.yes chain e, rfl, fun t ht => State.demand_ok ht _ _⟩
        | loop => exact ⟨.loop e, rfl, fun t ht => State.demand_ok ht _ _⟩
      exact ⟨.openBrace b, b, congrArg some hb, hf.trans (feeds_parens he p done outer hend),
        .one fun t ht => State.demand_ok ht _ _⟩
  | otherwise ha hne =>
      obtain ⟨chain, cond, yes, hf⟩ := feeds_arms ha hne hl
      refine ⟨_, .no chain cond yes, rfl, hf, .one fun t ht => ?_⟩
      simp only [State.feed]
      rw [if_neg (by simp [ht])]
      exact State.demand_ok ht _ _

/-- The parser follows a statement that has begun to a goal inside it. -/
theorem feeds_begun {us : List TokenKind} (h : Begun c us)
    (hs : Like s ⟨.statement, done, outer⟩) :
    ∃ s', Feeds s us s' ∧ s'.goal.construct? = some c := by
  have assign : ∀ x, Feeds s [.name x] ⟨.assignMark x, done, outer⟩ := fun x =>
    hs.begins (c := .assignment) rfl fun _ => rfl
  have input : Feeds s [.keyword .input] ⟨.inputName, done, outer⟩ :=
    hs.begins (c := .input) rfl fun _ => rfl
  cases h with
  | @name x => exact ⟨_, assign x, rfl⟩
  | @value x us hu =>
      obtain ⟨s', hf, hc⟩ := feeds_beginning hu (.assign x) done outer
      have hmark : Feeds ⟨.assignMark x, done, outer⟩ [.mark .assign]
          ⟨.operand (.assign x) [], done, outer⟩ := .one fun t ht => State.demand_ok ht _ _
      exact ⟨s', (assign x).trans (hmark.trans hf), hc⟩
  | input => exact ⟨_, input, rfl⟩
  | @target x =>
      refine ⟨⟨.inputEnd x, done, outer⟩, input.trans (.one fun t ht => ?_), rfl⟩
      simp only [State.feed, Token.demandName, ht]
      rfl
  | lead hl =>
      obtain ⟨p, rfl, hf⟩ := feeds_lead hl hs
      exact ⟨_, hf, rfl⟩
  | inner hl hu =>
      obtain ⟨p, rfl, hf⟩ := feeds_lead hl hs
      obtain ⟨s', hf', hc⟩ := feeds_beginning hu p done outer
      exact ⟨s', hf.trans (.cons (fun t ht => State.demand_ok ht _ _) hf'), hc⟩
  | @printed ks e he =>
      have hprint : Feeds s [.keyword .print] ⟨.openParen .print, done, outer⟩ :=
        hs.begins (c := .print) rfl fun _ => rfl
      have hparens := feeds_parens he .print done outer (g := .printEnd e)
        fun t ht => State.demand_ok ht _ _
      exact ⟨_, hprint.trans hparens, rfl⟩
  | head hh =>
      obtain ⟨g, b, hc, hf, -⟩ := feeds_blockHead hh hs
      exact ⟨_, hf, hc⟩

end Between

/-- The parser follows what ends where a statement may begin. -/
theorem feeds_boundary {depth : Nat} {ks : List TokenKind} (h : Boundary depth ks) :
    ∃ s done outer, Feeds .start ks s ∧ Like s ⟨.statement, done, outer⟩ ∧
      outer.length = depth := by
  induction h with
  | top hd =>
      obtain ⟨s, hf, hl⟩ := follows_of_derives hd [] [] .start (.refl _)
      exact ⟨s, _, [], hf, hl, rfl⟩
  | block _ hh hd ih =>
      obtain ⟨s, done, outer, hf, hl, rfl⟩ := ih
      obtain ⟨g, b, -, hhead, hopen⟩ := feeds_blockHead hh hl
      obtain ⟨s', hf', hl'⟩ := follows_of_derives hd [] ((b, done) :: outer) _ (.refl _)
      exact ⟨s', _, _, hf.trans (hhead.trans (hopen.trans hf')), hl', rfl⟩

/-- A state that takes every statement stands between two statements. -/
theorem Like.between {done : List Node} {outer : List (Body × List Node)}
    (h : Like s ⟨.statement, done, outer⟩) : s.goal.construct? = none ∧ s.outer = outer := by
  have hinput := h ⟨.keyword .input, .empty⟩ (by simp)
  have hprint := h ⟨.keyword .print, .empty⟩ (by simp)
  obtain ⟨g, done', outer'⟩ := s
  have hg : g.construct? = none := by
    cases hc : g.construct? with
    | none => rfl
    | some c =>
        -- Both keywords would have to keep to the statement that the goal belongs to.
        have hc₁ : some Construct.input = some c := State.feed_inside hc (by simp [Inside]) hinput
        have hc₂ : some Construct.print = some c := State.feed_inside hc (by simp [Inside]) hprint
        cases hc₁.trans hc₂.symm
  refine ⟨hg, ?_⟩
  cases g with
  | statement | orElse => exact congrArg State.outer (Step.next.inj (Except.ok.inj hinput))
  | _ => cases hg

/-! ### What is open behind tokens -/

theorem Passes.reached {us : List Token} (h : Passes Node.negate s us s') :
    ∀ {ks : List TokenKind}, Reached s ks → Reached s' (ks ++ us.map (·.kind)) := by
  induction h with
  | nil => exact fun hr => by simpa using hr
  | cons hf _ ih =>
      intro ks hr
      have h := ih (hr.feed hf)
      rwa [List.append_assoc] at h

theorem Passes.eq_of_feeds {us : List Token} {s₁ : State} (h : Passes Node.negate s us s')
    (hf : Feeds s (us.map (·.kind)) s₁) : s' = s₁ := by
  induction h with
  | nil => cases hf; rfl
  | cons ht _ ih =>
      cases hf with
      | cons hk hf =>
          cases ht.symm.trans (hk _ rfl)
          exact ih hf

section Behind

variable {us : List Token} (h : Passes Node.negate .start us s)
include h

/-- **The kinds behind a state end where a statement may begin** exactly if its goal is between two
statements, and then as many blocks are open. -/
theorem boundary_iff {depth : Nat} :
    Boundary depth (us.map (·.kind)) ↔ s.goal.construct? = none ∧ s.outer.length = depth := by
  constructor
  · intro hb
    obtain ⟨s', done, outer, hf, hl, rfl⟩ := feeds_boundary hb
    obtain rfl := h.eq_of_feeds hf
    obtain ⟨hg, ho⟩ := hl.between
    exact ⟨hg, congrArg List.length ho⟩
  · rintro ⟨hg, rfl⟩
    exact (h.reached reached_start).boundary hg

/-- **The statement that a state's goal belongs to is the innermost** of the kinds behind it. -/
theorem innermost_iff : Innermost c (us.map (·.kind)) ↔ s.goal.construct? = some c := by
  constructor
  · rintro ⟨depth, ps, bs, hb, hbegun, heq⟩
    obtain ⟨s₁, done, outer, hf₁, hl, -⟩ := feeds_boundary hb
    obtain ⟨s₂, hf₂, hc⟩ := feeds_begun hbegun hl
    obtain rfl := h.eq_of_feeds (heq ▸ hf₁.trans hf₂)
    exact hc
  · exact fun hg => (h.reached reached_start).innermost hg

end Behind

end Parser

end Treewalk
