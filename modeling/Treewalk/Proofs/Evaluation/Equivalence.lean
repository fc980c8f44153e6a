import Mathlib.Data.List.Forall2
import Treewalk.Proofs.Evaluation.Agreement

/-!
# Evaluation — Trees that mean the same

Two nodes are equivalent when they end with the same results in the same states, and so also fail to
end in the same states (`Equivalent`).  A part of a tree may be replaced by an equivalent one:
there is one lemma for each way to build a node.  A loop is the only one where this takes an
induction, on the derivation that the loop ends.

Equivalence is also told of the machine (`Equivalent.iff_evaluate`).
-/

namespace Treewalk

/-- Whatever task `t` ends with, task `u` ends with too. -/
def Task.Within (t u : Task) : Prop :=
  ∀ s r s', Evaluates t s r s' → Evaluates u s r s'

/-- The nodes end with the same results in the same states. -/
def Equivalent (m n : Node) : Prop :=
  ∀ s r s', Evaluates (.node m) s r s' ↔ Evaluates (.node n) s r s'

namespace Equivalent

variable {m n l r c e e' l' r' c' : Node} {yes no body ss yes' no' body' ss' : List Node}

theorem refl (n : Node) : Equivalent n n := fun _ _ _ => Iff.rfl

theorem symm (h : Equivalent m n) : Equivalent n m := fun s r s' => (h s r s').symm

theorem within (h : Equivalent m n) : Task.Within (.node m) (.node n) :=
  fun s r s' => (h s r s').mp

theorem of_within (h : Task.Within (.node m) (.node n)) (h' : Task.Within (.node n) (.node m)) :
    Equivalent m n :=
  fun s r s' => ⟨h s r s', h' s r s'⟩

/-- Equivalence, told of the machine: within some number of steps, both end alike. -/
theorem iff_evaluate (h : Equivalent m n) (s : State) (r : Except Fault Value) (s' : State) :
    (∃ fuel, evaluate fuel m s = some (r, s')) ↔ ∃ fuel, evaluate fuel n s = some (r, s') := by
  constructor
  · rintro ⟨_, hm⟩
    exact (h.within _ _ _ (evaluates_of_evaluate hm)).exists_evaluate
  · rintro ⟨_, hn⟩
    exact (h.symm.within _ _ _ (evaluates_of_evaluate hn)).exists_evaluate

theorem symm_all (h : List.Forall₂ Equivalent ss ss') : List.Forall₂ Equivalent ss' ss :=
  h.flip.imp fun _ _ => symm

/-! ### One way of a replacement -/

theorem within_sequence (h : List.Forall₂ Equivalent ss ss') :
    Task.Within (.sequence ss) (.sequence ss') := by
  induction h with
  | nil => exact fun _ _ _ hd => hd
  | cons hn _ ih =>
      intro s r s' hd
      cases hd with
      | cons hd hs => exact .cons (hn.within _ _ _ hd) (ih _ _ _ hs)
      | stop hd => exact .stop (hn.within _ _ _ hd)

theorem within_assign (x : String) (h : Equivalent e e') :
    Task.Within (.node (.assign x e)) (.node (.assign x e')) := by
  intro s r s' hd
  cases hd with
  | assign hd => exact .assign (h.within _ _ _ hd)
  | assignFault hd => exact .assignFault (h.within _ _ _ hd)

theorem within_print (h : Equivalent e e') :
    Task.Within (.node (.print e)) (.node (.print e')) := by
  intro s r s' hd
  cases hd with
  | print hd => exact .print (h.within _ _ _ hd)
  | printFault hd => exact .printFault (h.within _ _ _ hd)

theorem within_binary (op : Operator) (hl : Equivalent l l') (hr : Equivalent r r') :
    Task.Within (.node (.binary op l r)) (.node (.binary op l' r')) := by
  intro s r s' hd
  cases hd with
  | binary hdl hdr hy => exact .binary (hl.within _ _ _ hdl) (hr.within _ _ _ hdr) hy
  | leftFault hdl => exact .leftFault (hl.within _ _ _ hdl)
  | rightFault hdl hdr => exact .rightFault (hl.within _ _ _ hdl) (hr.within _ _ _ hdr)

theorem within_branch (hc : Equivalent c c') (hy : List.Forall₂ Equivalent yes yes')
    (hn : List.Forall₂ Equivalent no no') :
    Task.Within (.node (.branch c yes no)) (.node (.branch c' yes' no')) := by
  intro s r s' hd
  cases hd with
  | branchYes hd hv hs => exact .branchYes (hc.within _ _ _ hd) hv (within_sequence hy _ _ _ hs)
  | branchNo hd hv hs => exact .branchNo (hc.within _ _ _ hd) hv (within_sequence hn _ _ _ hs)
  | branchFault hd => exact .branchFault (hc.within _ _ _ hd)

theorem within_loop (hc : Equivalent c c') (hb : List.Forall₂ Equivalent body body') :
    Task.Within (.node (.loop c body)) (.node (.loop c' body')) := by
  intro s r s' hd
  generalize ht : Task.node (.loop c body) = t at hd
  induction hd with
  | loopEnd hd hv => cases ht; exact .loopEnd (hc.within _ _ _ hd) hv
  | loopPass hd hv hs _ _ _ ih =>
      cases ht
      exact .loopPass (hc.within _ _ _ hd) hv (within_sequence hb _ _ _ hs) (ih rfl)
  | loopFault hd => cases ht; exact .loopFault (hc.within _ _ _ hd)
  | passFault hd hv hs =>
      cases ht
      exact .passFault (hc.within _ _ _ hd) hv (within_sequence hb _ _ _ hs)
  | _ => cases ht

theorem within_block (h : List.Forall₂ Equivalent ss ss') :
    Task.Within (.node (.block ss)) (.node (.block ss')) := by
  intro s r s' hd
  cases hd with
  | block hd => exact .block (within_sequence h _ _ _ hd)

/-! ### Parts may be replaced -/

theorem assign (x : String) (h : Equivalent e e') : Equivalent (.assign x e) (.assign x e') :=
  of_within (within_assign x h) (within_assign x h.symm)

theorem print (h : Equivalent e e') : Equivalent (.print e) (.print e') :=
  of_within (within_print h) (within_print h.symm)

theorem binary (op : Operator) (hl : Equivalent l l') (hr : Equivalent r r') :
    Equivalent (.binary op l r) (.binary op l' r') :=
  of_within (within_binary op hl hr) (within_binary op hl.symm hr.symm)

theorem branch (hc : Equivalent c c') (hy : List.Forall₂ Equivalent yes yes')
    (hn : List.Forall₂ Equivalent no no') :
    Equivalent (.branch c yes no) (.branch c' yes' no') :=
  of_within (within_branch hc hy hn) (within_branch hc.symm (symm_all hy) (symm_all hn))

theorem loop (hc : Equivalent c c') (hb : List.Forall₂ Equivalent body body') :
    Equivalent (.loop c body) (.loop c' body') :=
  of_within (within_loop hc hb) (within_loop hc.symm (symm_all hb))

theorem block (h : List.Forall₂ Equivalent ss ss') : Equivalent (.block ss) (.block ss') :=
  of_within (within_block h) (within_block (symm_all h))

end Equivalent

end Treewalk
