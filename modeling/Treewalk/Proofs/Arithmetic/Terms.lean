import Treewalk.Proofs.Lexical.Symbols
import Treewalk.Run.Table

/-!
# Arithmetic — Terms

What an expression without texts says about all integers, where a number is what its digits spell,
however large it is.  `Formula r ys t` reads the symbols `ys` as a term by the rules of the grammar,
and `Term.value` is the integer that the term stands for.

The tree of a term (`Term.node`) holds words.  The digits of `Numeral.bound` are read right behind a
minus sign only, and there they are the least word, which has the wrong sign.

* `Formula.expression`: the tree of a term is the tree of the kinds that are read.
* `Formula.seated`: where the literal `Numeral.bound` may stand in a term that can be read: on the
  right of a subtraction, behind a minus sign, and on the left of an operator that binds tighter.
-/

namespace Treewalk

open Grammar Treewalk.Symbol

/-! ### Terms and their values -/

/-- An expression of numbers, names, minus signs and operators. -/
inductive Term where
  | literal (n : Nat)
  | name (x : String)
  | minus (t : Term)
  | operation (op : Operator) (l r : Term)
  deriving DecidableEq, Repr

/-- The operator over all integers: a quotient is cut off toward zero, a remainder has the sign of
the dividend, and a comparison is one or zero. -/
def Operator.exact : Operator → Int → Int → Int
  | add, a, b => a + b
  | sub, a, b => a - b
  | mul, a, b => a * b
  | div, a, b => a.tdiv b
  | mod, a, b => a.tmod b
  | greater, a, b => if b < a then 1 else 0
  | less, a, b => if a < b then 1 else 0
  | equal, a, b => if a = b then 1 else 0

namespace Term

/-- The literal that is no word. -/
def excess : Term := .literal Numeral.bound

/-- The integer that a term stands for. -/
def value (names : Table) : Term → Int
  | literal n => n
  | name x => (names.read x).toInt.toInt
  | minus t => 0 - t.value names
  | operation op l r => op.exact (l.value names) (r.value names)

/-- The terms that a term is made of, itself included. -/
def parts : Term → List Term
  | literal n => [.literal n]
  | name x => [.name x]
  | minus t => .minus t :: t.parts
  | operation op l r => .operation op l r :: (l.parts ++ r.parts)

/-- The tree of a term. -/
def node : Term → Node
  | literal n => .number (.ofNat n)
  | name x => .var x
  | minus t => t.node.negate
  | operation op l r => .binary op l.node r.node

theorem mem_parts_self (t : Term) : t ∈ t.parts := by
  cases t <;> simp [parts]

theorem inner_mem_parts (t : Term) : t ∈ (minus t).parts :=
  List.mem_cons_of_mem _ (mem_parts_self t)

theorem left_mem_parts (op : Operator) (l r : Term) : l ∈ (operation op l r).parts :=
  List.mem_cons_of_mem _ (List.mem_append_left _ (mem_parts_self l))

theorem right_mem_parts (op : Operator) (l r : Term) : r ∈ (operation op l r).parts :=
  List.mem_cons_of_mem _ (List.mem_append_right _ (mem_parts_self r))

theorem mem_parts_trans {t u v : Term} (hu : u ∈ t.parts) (hv : v ∈ u.parts) : v ∈ t.parts := by
  induction t with
  | literal n => cases List.mem_singleton.mp hu; exact hv
  | name x => cases List.mem_singleton.mp hu; exact hv
  | minus t ih =>
      rcases List.mem_cons.mp hu with rfl | hu
      · exact hv
      · exact List.mem_cons_of_mem _ (ih hu)
  | operation op l r ihl ihr =>
      rcases List.mem_cons.mp hu with rfl | hu
      · exact hv
      rcases List.mem_append.mp hu with hu | hu
      · exact List.mem_cons_of_mem _ (List.mem_append_left _ (ihl hu))
      · exact List.mem_cons_of_mem _ (List.mem_append_right _ (ihr hu))

/-- The literal that is no word stands, if at all, where a minus sign may be right before it: on the
right of a subtraction, and on the left of an operator that binds tighter. -/
def Seated : Term → Prop
  | literal n => n ≤ Numeral.bound
  | operation op l r => (l = excess → op.level = 4) ∧ (r = excess → op = .sub)
  | _ => True

end Term

/-! ### The terms of symbols -/

/-- `Formula r ys t`: the symbols are an expression of rank `r`, and `t` is what it says. -/
inductive Formula : Rank → List Symbol → Term → Prop where
  | literal {ds : List Char} : Formula .primary [.digits ds] (.literal (Numeral.value ds))
  | name {x : String} : Formula .primary [.kind (.name x)] (.name x)
  | parens {ys : List Symbol} {t : Term} : Formula .equality ys t →
      Formula .primary (.kind (.mark .openParen) :: (ys ++ [.kind (.mark .closeParen)])) t
  | minus {ys : List Symbol} {t : Term} : Formula .unary ys t →
      Formula .unary (.kind (.mark .minus) :: ys) (.minus t)
  | operation (op : Operator) {ys zs : List Symbol} {l r : Term} :
      Formula (rank op) ys l → Formula (rank op).tighter zs r →
      Formula (rank op) (ys ++ .kind (.mark op.mark) :: zs) (.operation op l r)
  | tighter {r : Rank} {ys : List Symbol} {t : Term} :
      Formula r.tighter ys t → Formula r ys t

/-- What is read from a sequence with a known kind in it. -/
theorem Symbol.Reads.split {m : Bool} {ys zs : List Symbol} {k : TokenKind}
    {ks : List TokenKind} (h : Reads m (ys ++ .kind k :: zs) ks) :
    ∃ ks₁ ks₂, ks = ks₁ ++ k :: ks₂ ∧ Reads m ys ks₁ ∧ Reads (k == .mark .minus) zs ks₂ := by
  induction ys generalizing m ks with
  | nil =>
      cases h with
      | cons hk h =>
          cases hk
          exact ⟨[], _, rfl, .nil, h⟩
  | cons y ys ih =>
      cases h with
      | cons hk h =>
          obtain ⟨ks₁, ks₂, rfl, h₁, h₂⟩ := ih h
          exact ⟨_ :: ks₁, ks₂, rfl, .cons hk h₁, h₂⟩

theorem Symbol.Reads.concat {m : Bool} {ys : List Symbol} {ks : List TokenKind}
    (h : Reads m ys ks) (k : TokenKind) : Reads m (ys ++ [.kind k]) (ks ++ [k]) := by
  induction h with
  | nil => exact .cons rfl .nil
  | cons hk _ ih => exact .cons hk ih

theorem Symbol.Reads.digits {m : Bool} {ds : List Char} {ks : List TokenKind}
    (h : Reads m [.digits ds] ks) :
    ks = [.number (.ofNat (Numeral.value ds))] ∧
      (Numeral.value ds < Numeral.bound ∨ m = true ∧ Numeral.value ds = Numeral.bound) := by
  cases h with
  | cons hk h =>
      cases h
      obtain ⟨n, hn, rfl⟩ := Option.map_eq_some_iff.mp hk
      obtain ⟨rfl, hlt⟩ := literal?_eq_some_iff.mp hn
      exact ⟨rfl, hlt⟩

/-- **The tree of a term is the tree of the kinds that are read.** -/
theorem Formula.expression {r : Rank} {ys : List Symbol} {t : Term} (hf : Formula r ys t) :
    ∀ {m : Bool} {ks : List TokenKind}, Reads m ys ks → Expression r ks t.node := by
  induction hf with
  | literal =>
      intro m ks h
      obtain ⟨rfl, -⟩ := h.digits
      exact .number
  | name =>
      intro m ks h
      cases h with | cons hk h => cases h; cases hk; exact .name
  | parens _ ih =>
      intro m ks h
      cases h with
      | cons hk h =>
          cases hk
          obtain ⟨ks₁, ks₂, rfl, h₁, h₂⟩ := h.split
          cases h₂
          exact .parens (ih h₁)
  | minus _ ih =>
      intro m ks h
      cases h with | cons hk h => cases hk; exact (ih h).negate
  | operation op _ _ ihl ihr =>
      intro m ks h
      obtain ⟨ks₁, ks₂, rfl, h₁, h₂⟩ := h.split
      exact .operation op (ihl h₁) (ihr h₂)
  | tighter _ ih => exact fun h => .tighter (ih h)

/-- **Where the literal that is no word may stand.**  Behind a minus sign comes an expression that
binds at least as tightly as a product, and only then may the literal be first. -/
theorem Formula.seated {r : Rank} {ys : List Symbol} {t : Term} (hf : Formula r ys t) :
    ∀ {m : Bool} {ks : List TokenKind}, Reads m ys ks → (m = true → 4 ≤ r.level) →
      (∀ u ∈ t.parts, u.Seated) ∧ (t = .excess → m = true) := by
  induction hf with
  | @literal ds =>
      intro m ks h _
      obtain ⟨-, hlt⟩ := h.digits
      refine ⟨fun u hu => ?_, fun heq => ?_⟩
      · rw [List.mem_singleton.mp hu]
        show Numeral.value ds ≤ Numeral.bound
        omega
      · have hv : Numeral.value ds = Numeral.bound := Term.literal.inj heq
        rcases hlt with hlt | ⟨hm, -⟩
        · omega
        · exact hm
  | name =>
      intro m ks _ _
      refine ⟨fun u hu => ?_, fun heq => nomatch heq⟩
      rw [List.mem_singleton.mp hu]
      trivial
  | parens _ ih =>
      intro m ks h _
      cases h with
      | cons hk h =>
          cases hk
          obtain ⟨ks₁, ks₂, -, h₁, -⟩ := h.split
          -- Right behind a parenthesis the literal is refused.
          have hin := ih h₁ (fun h => nomatch h)
          exact ⟨hin.1, fun heq => nomatch hin.2 heq⟩
  | @minus ys t _ ih =>
      intro m ks h _
      cases h with
      | cons hk h =>
          cases hk
          refine ⟨fun u hu => ?_, fun heq => nomatch heq⟩
          rcases List.mem_cons.mp hu with rfl | hu
          · trivial
          · exact (ih h fun _ => by decide).1 u hu
  | @operation op ys zs l r _ _ ihl ihr =>
      intro m ks h hm
      obtain ⟨ks₁, ks₂, rfl, h₁, h₂⟩ := h.split
      -- The right operand stands behind a minus sign exactly if the operator is one.
      have hsub : (TokenKind.mark op.mark == .mark .minus) = true → op = .sub := by
        cases op <;> decide
      have hl := ihl h₁ hm
      have hr := ihr h₂ fun h => by rw [hsub h]; decide
      refine ⟨fun u hu => ?_, fun heq => nomatch heq⟩
      rcases List.mem_cons.mp hu with rfl | hu
      · refine ⟨fun heq => ?_, fun heq => hsub (hr.2 heq)⟩
        have h4 := hm (hl.2 heq)
        rw [level_rank] at h4
        exact Nat.le_antisymm (Operator.level_le op) h4
      · rcases List.mem_append.mp hu with hu | hu
        · exact hl.1 u hu
        · exact hr.1 u hu
  | @tighter r ys t _ ih =>
      intro m ks h hm
      exact ih h fun hmt => Nat.le_trans (hm hmt) (Rank.level_le_tighter r)

/-! ### Assignments -/

/-- The symbols of a script that assigns to `x` the expression of the symbols `ys`. -/
def Symbol.assignment (x : String) (ys : List Symbol) : List Symbol :=
  .kind (.name x) :: .kind (.mark .assign) :: (ys ++ [.kind (.mark .semicolon)])

/-- A script that assigns a term whose symbols can be read has the tree of its assignment. -/
theorem Formula.tree_of_reads {script : Script} {x : String} {ys : List Symbol} {t : Term}
    {ks : List TokenKind} (hf : Formula .equality ys t)
    (hs : ofText script.text.toList = assignment x ys) (hr : Reads false ys ks) :
    script.tree = .ok (.block [.assign x t.node]) := by
  have hreads : Reads false (assignment x ys)
      (.name x :: .mark .assign :: (ks ++ [.mark .semicolon])) :=
    .cons rfl (.cons rfl (hr.concat _))
  have hassign := Derives.cons (.assign (x := x) (hf.expression hr)) .nil
  rw [List.append_nil] at hassign
  exact Script.tree_eq_ok_iff.mpr ⟨_, hs ▸ hreads, _, hassign, rfl⟩

/-- A script that assigns a term and has a tree: the term is well seated, and the tree is that of
its assignment. -/
theorem Formula.tree {script : Script} {x : String} {ys : List Symbol} {t : Term} {root : Node}
    (hf : Formula .equality ys t) (hs : ofText script.text.toList = assignment x ys)
    (hroot : script.tree = .ok root) :
    root = .block [.assign x t.node] ∧ (∀ u ∈ t.parts, u.Seated) ∧ t ≠ .excess := by
  obtain ⟨ks, hr, -⟩ := Script.tree_eq_ok_iff.mp hroot
  rw [hs] at hr
  cases hr with
  | cons hk hr =>
      cases hk
      cases hr with
      | cons hk hr =>
          cases hk
          obtain ⟨ks₁, -, -, h₁, -⟩ := hr.split
          obtain ⟨hseated, hex⟩ := hf.seated h₁ (fun h => nomatch h)
          refine ⟨?_, hseated, fun heq => nomatch hex heq⟩
          injection hroot.symm.trans (hf.tree_of_reads hs h₁)

end Treewalk
