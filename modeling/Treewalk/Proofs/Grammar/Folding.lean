import Treewalk.Parse.Program
import Treewalk.Proofs.Evaluation.Equivalence

/-!
# Grammar — What a minus sign builds

`parse` makes a negative number of a minus sign before a number; the plain parser, `parseWith
Node.minus`, subtracts from zero there as everywhere else.  Both read the same tokens and refuse the
same ones, and what they build means the same.

The parser looks at no tree that it has built, except through the function that it is given for
minus signs.  So two parsers with different such functions run side by side: `Respects R f g` says
that a relation `R` between trees is kept by all that the two parsers build, and then their states
stay related (`State.Rel.feed`), and so do their answers (`parseWith_rel`).

* `Equivalent.negate`: both readings of a minus sign are equivalent.
* `parse_equivalent_plain`: the two parsers answer alike, with equivalent trees.
-/

namespace Treewalk

namespace Parser

/-- The relation between trees is kept by all that two parsers build, of which one makes `f e` of a
minus sign before `e`, and the other `g e`. -/
structure Respects (R : Node → Node → Prop) (f g : Node → Node) : Prop where
  number (n : Int64) : R (.number n) (.number n)
  text (x : String) : R (.text x) (.text x)
  var (x : String) : R (.var x) (.var x)
  negate {e e' : Node} : R e e' → R (f e) (g e')
  binary (op : Operator) {l l' r r' : Node} : R l l' → R r r' →
    R (.binary op l r) (.binary op l' r')
  assign (x : String) {e e' : Node} : R e e' → R (.assign x e) (.assign x e')
  input (x : String) : R (.input x) (.input x)
  print {e e' : Node} : R e e' → R (.print e) (.print e')
  branch {c c' : Node} {yes yes' no no' : List Node} : R c c' → List.Forall₂ R yes yes' →
    List.Forall₂ R no no' → R (.branch c yes no) (.branch c' yes' no')
  loop {c c' : Node} {body body' : List Node} : R c c' → List.Forall₂ R body body' →
    R (.loop c body) (.loop c' body')
  block {ss ss' : List Node} : List.Forall₂ R ss ss' → R (.block ss) (.block ss')

/-! ### Related states -/

variable {R : Node → Node → Prop}

/-- The chains have related arms. -/
def Chain.Rel (R : Node → Node → Prop) : Chain → Chain → Prop :=
  List.Forall₂ fun (c, yes) (c', yes') => R c c' ∧ List.Forall₂ R yes yes'

/-- The purposes differ at most in the trees of a chain. -/
inductive Purpose.Rel (R : Node → Node → Prop) : Purpose → Purpose → Prop where
  | assign {x : String} : Purpose.Rel R (.assign x) (.assign x)
  | print : Purpose.Rel R .print .print
  | branch {chain chain' : Chain} : chain.Rel R chain' →
      Purpose.Rel R (.branch chain) (.branch chain')
  | loop : Purpose.Rel R .loop .loop

/-- The same waits, with related left operands. -/
inductive Waiting.Rel (R : Node → Node → Prop) : Waiting → Waiting → Prop where
  | negation : Waiting.Rel R .negation .negation
  | paren : Waiting.Rel R .paren .paren
  | operation {op : Operator} {l l' : Node} : R l l' →
      Waiting.Rel R (.operation op l) (.operation op l')

/-- The blocks belong to the same statement, with related trees before them. -/
inductive Body.Rel (R : Node → Node → Prop) : Body → Body → Prop where
  | yes {chain chain' : Chain} {c c' : Node} : chain.Rel R chain' → R c c' →
      Body.Rel R (.yes chain c) (.yes chain' c')
  | no {chain chain' : Chain} {c c' : Node} {yes yes' : List Node} : chain.Rel R chain' →
      R c c' → List.Forall₂ R yes yes' → Body.Rel R (.no chain c yes) (.no chain' c' yes')
  | loop {c c' : Node} : R c c' → Body.Rel R (.loop c) (.loop c')

/-- The grammar calls for the same, with related trees behind. -/
inductive Goal.Rel (R : Node → Node → Prop) : Goal → Goal → Prop where
  | statement : Goal.Rel R .statement .statement
  | assignMark {x : String} : Goal.Rel R (.assignMark x) (.assignMark x)
  | inputName : Goal.Rel R .inputName .inputName
  | inputEnd {x : String} : Goal.Rel R (.inputEnd x) (.inputEnd x)
  | openParen {p p' : Purpose} : p.Rel R p' → Goal.Rel R (.openParen p) (.openParen p')
  | operand {p p' : Purpose} {ws ws' : List Waiting} : p.Rel R p' →
      List.Forall₂ (Waiting.Rel R) ws ws' → Goal.Rel R (.operand p ws) (.operand p' ws')
  | operator {p p' : Purpose} {ws ws' : List Waiting} {e e' : Node} : p.Rel R p' →
      List.Forall₂ (Waiting.Rel R) ws ws' → R e e' →
      Goal.Rel R (.operator p ws e) (.operator p' ws' e')
  | printEnd {e e' : Node} : R e e' → Goal.Rel R (.printEnd e) (.printEnd e')
  | openBrace {b b' : Body} : b.Rel R b' → Goal.Rel R (.openBrace b) (.openBrace b')
  | orElse {chain chain' : Chain} {c c' : Node} {yes yes' : List Node} : chain.Rel R chain' →
      R c c' → List.Forall₂ R yes yes' → Goal.Rel R (.orElse chain c yes) (.orElse chain' c' yes')
  | elseBody {chain chain' : Chain} {c c' : Node} {yes yes' : List Node} :
      chain.Rel R chain' → R c c' → List.Forall₂ R yes yes' →
      Goal.Rel R (.elseBody chain c yes) (.elseBody chain' c' yes')

/-- The blocks are open in the same places, with related trees before and around them. -/
def Outer.Rel (R : Node → Node → Prop) :
    List (Body × List Node) → List (Body × List Node) → Prop :=
  List.Forall₂ fun (b, before) (b', before') => b.Rel R b' ∧ List.Forall₂ R before before'

/-- The states stand at the same place, with related trees behind them. -/
structure State.Rel (R : Node → Node → Prop) (s s' : State) : Prop where
  goal : s.goal.Rel R s'.goal
  done : List.Forall₂ R s.done s'.done
  outer : Outer.Rel R s.outer s'.outer

/-- The answers to one token are the same error, or related. -/
inductive Answer.Rel (R : Node → Node → Prop) :
    Except ParseError Step → Except ParseError Step → Prop where
  | error (e : ParseError) : Answer.Rel R (.error e) (.error e)
  | next {s s' : State} : s.Rel R s' → Answer.Rel R (.ok (.next s)) (.ok (.next s'))
  | accept {root root' : Node} : R root root' →
      Answer.Rel R (.ok (.accept root)) (.ok (.accept root'))

/-! ### One token -/

theorem Purpose.Rel.construct {p p' : Purpose} (h : p.Rel R p') : p.construct = p'.construct := by
  cases h <;> rfl

theorem Body.Rel.construct {b b' : Body} (h : b.Rel R b') : b.construct = b'.construct := by
  cases h <;> rfl

theorem State.Rel.toward {s s' : State} (h : s.Rel R s') {g g' : Goal} (hg : g.Rel R g') :
    (s.toward g).Rel R (s'.toward g') :=
  ⟨hg, h.done, h.outer⟩

theorem State.Rel.finish {s s' : State} (h : s.Rel R s') {n n' : Node} (hn : R n n') :
    (s.finish n).Rel R (s'.finish n') :=
  ⟨.statement, .cons hn h.done, h.outer⟩

theorem State.Rel.enter {s s' : State} (h : s.Rel R s') {b b' : Body} (hb : b.Rel R b') :
    (s.enter b).Rel R (s'.enter b') :=
  ⟨.statement, .nil, .cons ⟨hb, h.done⟩ h.outer⟩

theorem Answer.Rel.demand {s s' : State} (h : s.Rel R s') (t : Token) (m : Mark)
    {c c' : Construct} (hc : c = c') :
    Answer.Rel R (State.demand t m c s) (State.demand t m c' s') := by
  subst hc
  unfold State.demand
  split
  · exact .next h
  · exact .error _

section

variable {f g : Node → Node} (H : Respects R f g)
include H

theorem Chain.Rel.close {chain chain' : Chain} (h : chain.Rel R chain') {n n' : Node}
    (hn : R n n') : R (chain.close n) (chain'.close n') := by
  induction h generalizing n n' with
  | nil => exact hn
  | cons ha _ ih => exact ih (H.branch ha.1 ha.2 (.cons hn .nil))

theorem reduce_rel (level : Nat) {ws ws' : List Waiting} (h : List.Forall₂ (Waiting.Rel R) ws ws')
    {e e' : Node} (he : R e e') :
    List.Forall₂ (Waiting.Rel R) (reduce f level ws e).1 (reduce g level ws' e').1 ∧
      R (reduce f level ws e).2 (reduce g level ws' e').2 := by
  induction h generalizing e e' with
  | nil => exact ⟨.nil, he⟩
  | cons hw h ih =>
      cases hw with
      | negation => exact ih (H.negate he)
      | paren => exact ⟨.cons .paren h, he⟩
      | @operation op l l' hl =>
          rw [reduce, reduce]
          split
          · exact ih (H.binary op hl he)
          · exact ⟨.cons (.operation hl) h, he⟩

theorem State.Rel.leave {s s' : State} (h : s.Rel R s') {b b' : Body} (hb : b.Rel R b')
    {before before' : List Node} (hbefore : List.Forall₂ R before before')
    {outer outer' : List (Body × List Node)} (houter : Outer.Rel R outer outer') :
    (s.leave b before outer).Rel R (s'.leave b' before' outer') := by
  have hdone : List.Forall₂ R s.done.reverse s'.done.reverse :=
    List.forall₂_reverse_iff.mpr h.done
  have houtside : State.Rel R ⟨.statement, before, outer⟩ ⟨.statement, before', outer'⟩ :=
    ⟨.statement, hbefore, houter⟩
  cases hb with
  | yes hchain hc => exact ⟨.orElse hchain hc hdone, hbefore, houter⟩
  | no hchain hc hyes => exact houtside.finish (hchain.close H (H.branch hc hyes hdone))
  | loop hc => exact houtside.finish (H.loop hc hdone)

theorem State.Rel.feedStatement {s s' : State} (h : s.Rel R s') (t : Token) :
    Answer.Rel R (s.feedStatement t) (s'.feedStatement t) := by
  have houter := h.outer
  unfold State.feedStatement
  cases t.kind with
  | name x => exact .next (h.toward .assignMark)
  | number n | text x => exact .error _
  | keyword k =>
      cases k with
      | input => exact .next (h.toward .inputName)
      | print => exact .next (h.toward (.openParen .print))
      | branch => exact .next (h.toward (.openParen (.branch .nil)))
      | loop => exact .next (h.toward (.openParen .loop))
      | otherwise => exact .error _
  | mark m =>
      cases m with
      | closeBrace =>
          generalize s.outer = outer, s'.outer = outer' at houter
          cases houter with
          | nil => exact .error _
          | cons hb ho => exact .next (h.leave H hb.1 hb.2 ho)
      | _ => exact .error _
  | finish =>
      generalize s.outer = outer, s'.outer = outer' at houter
      cases houter with
      | nil => exact .accept (H.block (List.forall₂_reverse_iff.mpr h.done))
      | cons _ _ => exact .error _

theorem State.Rel.feedOperand {s s' : State} (h : s.Rel R s') {p p' : Purpose} (hp : p.Rel R p')
    {ws ws' : List Waiting} (hw : List.Forall₂ (Waiting.Rel R) ws ws') (t : Token) :
    Answer.Rel R (s.feedOperand p ws t) (s'.feedOperand p' ws' t) := by
  unfold State.feedOperand
  rw [hp.construct]
  split
  · exact .next (h.toward (.operand hp (.cons .negation hw)))
  · exact .next (h.toward (.operand hp (.cons .paren hw)))
  · exact .next (h.toward (.operator hp hw (H.number _)))
  · exact .next (h.toward (.operator hp hw (H.text _)))
  · exact .next (h.toward (.operator hp hw (H.var _)))
  · exact .error _

theorem State.Rel.feedEnd {s s' : State} (h : s.Rel R s') {p p' : Purpose} (hp : p.Rel R p')
    {e e' : Node} (he : R e e') (t : Token) :
    Answer.Rel R (s.feedEnd p e t) (s'.feedEnd p' e' t) := by
  cases hp with
  | assign => exact .demand (h.finish (H.assign _ he)) t _ rfl
  | print => exact .demand (h.toward (.printEnd he)) t _ rfl
  | branch hchain => exact .demand (h.toward (.openBrace (.yes hchain he))) t _ rfl
  | loop => exact .demand (h.toward (.openBrace (.loop he))) t _ rfl

theorem State.Rel.feedOperator {s s' : State} (h : s.Rel R s') {p p' : Purpose} (hp : p.Rel R p')
    {ws ws' : List Waiting} (hw : List.Forall₂ (Waiting.Rel R) ws ws') {e e' : Node} (he : R e e')
    (t : Token) :
    Answer.Rel R (s.feedOperator f p ws e t) (s'.feedOperator g p' ws' e' t) := by
  unfold State.feedOperator
  split
  · next op _ =>
      obtain ⟨hws, hr⟩ := reduce_rel H op.level hw he
      exact .next (h.toward (.operand hp (.cons (.operation hr) hws)))
  · obtain ⟨hws, hr⟩ := reduce_rel H 0 hw he
    generalize reduce f 0 ws e = x, reduce g 0 ws' e' = x' at hws hr
    obtain ⟨vs, n⟩ := x
    obtain ⟨vs', n'⟩ := x'
    cases hws with
    | nil => exact h.feedEnd H hp hr t
    | cons hv hvs =>
        cases hv with
        | paren => exact .demand (h.toward (.operator hp hvs hr)) t _ hp.construct
        | negation | operation => exact h.feedEnd H hp hr t

/-- **Related states answer a token alike.** -/
theorem State.Rel.feed {s s' : State} (h : s.Rel R s') (t : Token) :
    Answer.Rel R (s.feed f t) (s'.feed g t) := by
  obtain ⟨goal, done, outer⟩ := s
  obtain ⟨goal', done', outer'⟩ := s'
  have hgoal : goal.Rel R goal' := h.goal
  cases hgoal with
  | statement => exact h.feedStatement H t
  | @assignMark x => exact .demand (h.toward (.operand .assign .nil)) t _ rfl
  | inputName =>
      simp only [State.feed]
      split
      · exact .next (h.toward .inputEnd)
      · exact .error _
  | @inputEnd x => exact .demand (h.finish (H.input x)) t _ rfl
  | openParen hp => exact .demand (h.toward (.operand hp .nil)) t _ hp.construct
  | operand hp hw => exact h.feedOperand H hp hw t
  | operator hp hw he => exact h.feedOperator H hp hw he t
  | printEnd he => exact .demand (h.finish (H.print he)) t _ rfl
  | openBrace hb => exact .demand (h.enter hb) t _ hb.construct
  | orElse hchain hc hyes =>
      simp only [State.feed]
      split
      · exact .next (h.toward (.elseBody hchain hc hyes))
      · exact (h.finish (hchain.close H (H.branch hc hyes .nil))).feedStatement H t
  | elseBody hchain hc hyes =>
      simp only [State.feed]
      split
      · exact .next (h.toward (.openParen (.branch (.cons ⟨hc, hyes⟩ hchain))))
      · exact .demand (h.enter (.no hchain hc hyes)) t _ rfl

/-! ### Whole lists of tokens -/

/-- The parsers have no answer, the same error, or related trees. -/
inductive Result.Rel (R : Node → Node → Prop) :
    Option (Except ParseError Node) → Option (Except ParseError Node) → Prop where
  | none : Result.Rel R none none
  | error (e : ParseError) : Result.Rel R (some (.error e)) (some (.error e))
  | ok {root root' : Node} : R root root' → Result.Rel R (some (.ok root)) (some (.ok root'))

theorem run_rel (fuel : Nat) {s s' : State} (h : s.Rel R s') (c : Cursor) :
    Result.Rel R (run f fuel s c) (run g fuel s' c) := by
  induction fuel generalizing s s' c with
  | zero => exact .none
  | succ fuel ih =>
      have ha := h.feed H c.current
      rw [run, run]
      generalize s.feed f c.current = a, s'.feed g c.current = a' at ha
      cases ha with
      | error e => exact .error e
      | next h' => exact ih h' c.advance
      | accept hr => exact .ok hr

/-- **Two parsers answer alike** if a relation is kept by all that they build. -/
theorem parseWith_rel (ts : List Token) : Result.Rel R (parseWith f ts) (parseWith g ts) :=
  have hstart : State.Rel R .start .start := ⟨.statement, .nil, List.Forall₂.nil⟩
  run_rel H _ hstart _

end

end Parser

/-! ### Minus signs -/

namespace Equivalent

variable {e e' : Node}

/-- Zero minus what is equivalent to a number is equivalent to the negative number. -/
theorem number_neg {n : Int64} (h : Equivalent (.number n) e) :
    Equivalent (.number (-n)) e.minus := by
  have hminus : ∀ s, Evaluates (.node e.minus) s (.ok (.int (-n))) s := by
    intro s
    have he : Evaluates (.node e) s (.ok (.int n)) s := h.within _ _ _ .number
    have hy : Operator.Yields .sub 0 n (.ok (-n)) :=
      Operator.apply_eq_iff.mp (by rw [Operator.apply, Int64.zero_sub])
    exact .binary (a := .int 0) (b := .int n) .number he hy
  refine of_within (fun s r s' hd => ?_) (fun s r s' hd => ?_)
  · cases hd
    exact hminus s
  · obtain ⟨rfl, rfl⟩ := hd.unique (hminus s)
    exact .number

/-- Both readings of a minus sign are equivalent. -/
theorem negate (h : Equivalent e e') : Equivalent e.negate e'.minus := by
  cases e with
  | number n => exact number_neg h
  | _ => exact binary .sub (refl _) h

end Equivalent

/-- Equivalence is kept by the parser and the plain parser. -/
theorem Parser.respects_equivalent : Respects Equivalent Node.negate Node.minus where
  number _ := .refl _
  text _ := .refl _
  var _ := .refl _
  negate := .negate
  binary op := .binary op
  assign x := .assign x
  input _ := .refl _
  print := .print
  branch := .branch
  loop := .loop
  block := .block

/-- **Making a number of a minus sign and a number changes no answer and no meaning.**  On every
list of tokens the parser and the plain parser both have no answer, or the same error, or trees
that end with the same results in the same states. -/
theorem parse_equivalent_plain (ts : List Token) :
    (parse ts = none ∧ parseWith Node.minus ts = none) ∨
      (∃ e, parse ts = some (.error e) ∧ parseWith Node.minus ts = some (.error e)) ∨
      ∃ folded plain, parse ts = some (.ok folded) ∧ parseWith Node.minus ts = some (.ok plain) ∧
        ∀ (s : State) (r : Except Fault Value) (s' : State),
          (∃ fuel, evaluate fuel folded s = some (r, s')) ↔
            ∃ fuel, evaluate fuel plain s = some (r, s') := by
  have h := Parser.parseWith_rel Parser.respects_equivalent ts
  rw [← parse] at h
  generalize parse ts = x, parseWith Node.minus ts = y at h
  cases h with
  | none => exact .inl ⟨rfl, rfl⟩
  | error e => exact .inr (.inl ⟨e, rfl, rfl⟩)
  | ok hr => exact .inr (.inr ⟨_, _, rfl, rfl, hr.iff_evaluate⟩)

end Treewalk
