import LiveStyle.Proofs.Evaluation.Runs
import LiveStyle.Proofs.Tree.Containment
import LiveStyle.Tree.Release

/-! # How memory fills

Memory fills from below: a node remembers only when it is constant and everything below it
remembers already.  Building starts with nothing remembered, joining puts an empty node above
what is there, and an evaluation fills what it can and changes nothing that was filled.
-/
namespace LiveStyle

namespace Memo

variable {α : Type}

theorem value_of_remembered {memo : Memo α} {a : α} (h : memo.remembered = some a) :
    memo.value = some a := by
  unfold remembered at h
  split at h
  · exact h
  · cases h

theorem remembered_of_changing {memo : Memo α} (h : memo.constant = false) :
    memo.remembered = none := by
  rw [remembered, h]
  rfl

theorem remembered_of_constant {memo : Memo α} (h : memo.constant = true) :
    memo.remembered = memo.value := if_pos h

theorem value_keep (memo : Memo α) (a : α) :
    (memo.keep a).value = if memo.constant then some a else memo.value := by
  unfold keep
  split <;> rfl

/-- A filled memo is never emptied or overwritten. -/
theorem value_keep_of_some {memo : Memo α} {a : α} (h : memo.remembered = none)
    (hvalue : memo.value = some a) (b : α) : (memo.keep b).value = some a := by
  unfold remembered at h
  split at h
  · cases h.symm.trans hvalue
  next hconstant => rw [keep, if_neg hconstant, hvalue]

theorem isSome_value_keep {memo : Memo α} (h : memo.value.isSome = true) (a : α) :
    (memo.keep a).value.isSome = true := by
  unfold keep
  split
  · rfl
  · exact h

theorem isSome_value_keep_of_constant {memo : Memo α} (h : memo.constant = true) (a : α) :
    (memo.keep a).value.isSome = true := by
  rw [keep, if_pos h]
  rfl

theorem constant_of_isSome_value_keep {memo : Memo α} {a : α}
    (hmemo : memo.value.isSome = true → memo.constant = true)
    (h : (memo.keep a).value.isSome = true) : memo.constant = true := by
  unfold keep at h
  split at h
  · assumption
  · exact hmemo h

end Memo

namespace Node

/-- What is written in the memory of a node, whether or not it may be used. -/
def stored? : Node → Option Quantity
  | operator _ _ _ _ memo => memo.value
  | calculation _ memo => memo.value
  | broken _ memo => memo.value
  | _ => none

def Filled : Node → Prop
  | operator _ left right _ memo => left.Filled ∧ right.Filled ∧ memo.value.isSome = true
  | calculation inner memo => inner.Filled ∧ memo.value.isSome = true
  | broken _ memo => memo.value.isSome = true
  | _ => True

/-- Only constant nodes remember, and only above filled ones. -/
def FilledFromBelow : Node → Prop
  | operator _ left right _ memo =>
    left.FilledFromBelow ∧ right.FilledFromBelow ∧
      (memo.value.isSome = true → memo.constant = true ∧ left.Filled ∧ right.Filled)
  | calculation inner memo =>
    inner.FilledFromBelow ∧ (memo.value.isSome = true → memo.constant = true ∧ inner.Filled)
  | broken _ memo => memo.value.isSome = true → memo.constant = true
  | _ => True

section Filled
variable {node below : Node}

theorem Coherent.isConstant_operands {symbol : String} {left right : Node}
    {policy : DivisionPolicy} {memo : Memo Quantity}
    (h : (operator symbol left right policy memo).Coherent) (hconstant : memo.constant = true) :
    left.isConstant = true ∧ right.isConstant = true := by
  rw [h.2.2.constant_eq, isSome_fixed?_operator, Bool.and_eq_true] at hconstant
  rwa [h.1.isConstant_eq, h.2.1.isConstant_eq]

theorem Coherent.isConstant_inner {inner : Node} {memo : Memo Quantity}
    (h : (calculation inner memo).Coherent) (hconstant : memo.constant = true) :
    inner.isConstant = true := by
  rwa [h.1.isConstant_eq, ← h.2.constant_eq]

theorem Coherent.isConstant_child {step : Step} {child : Node} (h : node.Coherent)
    (hchild : node.child? step = some child) (hconstant : node.isConstant = true) :
    child.isConstant = true := by
  cases node <;> cases step <;> cases hchild
  case calculation.inner => exact h.isConstant_inner hconstant
  case operator.left => exact (h.isConstant_operands hconstant).1
  case operator.right => exact (h.isConstant_operands hconstant).2

theorem Coherent.fixed?_of_stored? {value : Quantity} (h : node.Coherent)
    (hstored : node.stored? = some value) : node.fixed? = some value := by
  cases node with
  | operator symbol left right policy memo => exact h.2.2.value_eq value hstored
  | calculation inner memo => exact h.2.value_eq value hstored
  | broken error memo => exact h.value_eq value hstored
  | _ => cases hstored

theorem Filled.isSome_stored? (h : node.Filled) (hcompound : node.isCompound = true) :
    node.stored?.isSome = true := by
  cases node with
  | operator symbol left right policy memo => exact h.2.2
  | calculation inner memo => exact h.2
  | broken error memo => exact h
  | _ => cases hcompound

theorem Filled.child {step : Step} {child : Node} (h : node.Filled)
    (hchild : node.child? step = some child) : child.Filled := by
  cases node <;> cases step <;> cases hchild
  case calculation.inner => exact h.1
  case operator.left => exact h.1
  case operator.right => exact h.2.1

theorem Filled.of_contains (h : node.Filled) (hbelow : node.Contains below) : below.Filled :=
  hbelow.of_child Filled.child h

theorem FilledFromBelow.child {step : Step} {child : Node} (h : node.FilledFromBelow)
    (hchild : node.child? step = some child) : child.FilledFromBelow := by
  cases node <;> cases step <;> cases hchild
  case calculation.inner => exact h.1
  case operator.left => exact h.1
  case operator.right => exact h.2.1

theorem FilledFromBelow.of_contains (h : node.FilledFromBelow) (hbelow : node.Contains below) :
    below.FilledFromBelow :=
  hbelow.of_child FilledFromBelow.child h

/-- A node that remembers is constant and stands above filled nodes only. -/
theorem FilledFromBelow.of_stored? (h : node.FilledFromBelow)
    (hstored : node.stored?.isSome = true) : node.isConstant = true ∧ node.Filled := by
  cases node with
  | operator symbol left right policy memo =>
    obtain ⟨hconstant, hl, hr⟩ := h.2.2 hstored
    exact ⟨hconstant, hl, hr, hstored⟩
  | calculation inner memo =>
    obtain ⟨hconstant, hi⟩ := h.2 hstored
    exact ⟨hconstant, hi, hstored⟩
  | broken error memo => exact ⟨h hstored, hstored⟩
  | _ => cases hstored

end Filled

section Built

theorem filledFromBelow_join (policy : DivisionPolicy) (symbol : String) {left right : Node}
    (hl : left.FilledFromBelow) (hr : right.FilledFromBelow) :
    (join policy symbol left right).FilledFromBelow :=
  ⟨hl, hr, nofun⟩

theorem filledFromBelow_leaf (policy : DivisionPolicy) (term : Term) :
    (leaf policy term).FilledFromBelow :=
  leaf_induction (fun _ => trivial) (fun _ => trivial)
    (fun symbol _ _ hl hr => filledFromBelow_join policy symbol hl hr) (fun _ h => ⟨h, nofun⟩)
    (fun _ => nofun) term

end Built

section Evaluated
variable {σ : Type} [ScrollSource σ] {node : Node}

theorem Filled.evaluate (h : node.Filled) (host : Host σ) : (node.evaluate host).next.Filled := by
  fun_induction Node.evaluate node host with
  | case1 => trivial
  | case2 => trivial
  | case4 symbol left right policy memo host _ l r value last _ ihl ihr =>
    exact ⟨ihl h.1, ihr h.2.1, Memo.isSome_value_keep h.2.2 value⟩
  | case6 inner memo host _ i ih => exact ⟨ih h.1, Memo.isSome_value_keep h.2 _⟩
  | case8 error memo host _ => exact Memo.isSome_value_keep h _
  | _ => exact h

/-- Evaluating a constant node fills it, with everything below it. -/
theorem FilledFromBelow.filled_evaluate (h : node.FilledFromBelow) (hcoherent : node.Coherent)
    (hconstant : node.isConstant = true) (host : Host σ) : (node.evaluate host).next.Filled := by
  fun_induction Node.evaluate node host
  case case1 => trivial
  case case2 => cases hconstant
  case case3 hremembered | case5 hremembered | case7 hremembered =>
    -- Answering from memory fills nothing, but what remembers stands above filled nodes already.
    exact (h.of_stored? (Option.isSome_of_eq_some (Memo.value_of_remembered hremembered))).2
  case case4 symbol left right policy memo host _ l r value last _ ihl ihr =>
    obtain ⟨hl, hr⟩ := hcoherent.isConstant_operands hconstant
    exact ⟨ihl h.1 hcoherent.1 hl, ihr h.2.1 hcoherent.2.1 hr,
      Memo.isSome_value_keep_of_constant hconstant value⟩
  case case6 inner memo host _ i ih =>
    have hi := hcoherent.isConstant_inner hconstant
    exact ⟨ih h.1 hcoherent.1 hi, Memo.isSome_value_keep_of_constant hconstant _⟩
  case case8 error memo host _ => exact Memo.isSome_value_keep_of_constant hconstant _

theorem FilledFromBelow.evaluate (h : node.FilledFromBelow) (hcoherent : node.Coherent)
    (host : Host σ) : (node.evaluate host).next.FilledFromBelow := by
  fun_induction Node.evaluate node host with
  | case4 symbol left right policy memo host _ l r value last _ ihl ihr =>
    refine ⟨ihl h.1 hcoherent.1, ihr h.2.1 hcoherent.2.1, fun hstored => ?_⟩
    have hconstant := Memo.constant_of_isSome_value_keep (fun hvalue => (h.2.2 hvalue).1) hstored
    obtain ⟨hl, hr⟩ := hcoherent.isConstant_operands hconstant
    exact ⟨(Memo.keep_constant _ _).trans hconstant, h.1.filled_evaluate hcoherent.1 hl host,
      h.2.1.filled_evaluate hcoherent.2.1 hr l.host⟩
  | case6 inner memo host _ i ih =>
    refine ⟨ih h.1 hcoherent.1, fun hstored => ?_⟩
    have hconstant := Memo.constant_of_isSome_value_keep (fun hvalue => (h.2 hvalue).1) hstored
    have hi := hcoherent.isConstant_inner hconstant
    exact ⟨(Memo.keep_constant _ _).trans hconstant, h.1.filled_evaluate hcoherent.1 hi host⟩
  | case8 error memo host _ =>
    intro hstored
    exact (Memo.keep_constant _ _).trans (Memo.constant_of_isSome_value_keep h hstored)
  | _ => exact h

theorem Filled.evaluateAt (h : node.Filled) (path : List Step) (host : Host σ) :
    (evaluateAt path node host).next.Filled := by
  fun_induction Node.evaluateAt path node host with
  | case1 node host o => exact h.evaluate host
  | case2 path inner memo host o ih => exact ⟨ih h.1, h.2⟩
  | case3 path symbol left right policy memo host o ih => exact ⟨ih h.1, h.2⟩
  | case4 path symbol left right policy memo host o ih => exact ⟨h.1, ih h.2.1, h.2.2⟩
  | case5 => exact h

theorem FilledFromBelow.evaluateAt (h : node.FilledFromBelow) (hcoherent : node.Coherent)
    (path : List Step) (host : Host σ) : (evaluateAt path node host).next.FilledFromBelow := by
  fun_induction Node.evaluateAt path node host with
  | case1 node host o => exact h.evaluate hcoherent host
  | case2 path inner memo host o ih =>
    refine ⟨ih h.1 hcoherent.1, fun hstored => ?_⟩
    obtain ⟨hconstant, hi⟩ := h.2 hstored
    exact ⟨hconstant, hi.evaluateAt path host⟩
  | case3 path symbol left right policy memo host o ih =>
    refine ⟨ih h.1 hcoherent.1, h.2.1, fun hstored => ?_⟩
    obtain ⟨hconstant, hl, hr⟩ := h.2.2 hstored
    exact ⟨hconstant, hl.evaluateAt path host, hr⟩
  | case4 path symbol left right policy memo host o ih =>
    refine ⟨h.1, ih h.2.1 hcoherent.2.1, fun hstored => ?_⟩
    obtain ⟨hconstant, hl, hr⟩ := h.2.2 hstored
    exact ⟨hconstant, hl, hr.evaluateAt path host⟩
  | case5 => exact h

end Evaluated

theorem Reached.filledFromBelow {node : Node} (h : Reached node) : node.FilledFromBelow := by
  induction h with
  | term policy term log =>
    rw [ofTerm_fst]
    exact filledFromBelow_leaf policy term
  | calculation policy name arguments log =>
    rw [ofCalculation_eq_leaf]
    exact filledFromBelow_leaf policy _
  | environment arguments log => trivial
  | join policy symbol _ _ hl hr => exact filledFromBelow_join policy symbol hl hr
  | evaluated path host hnode ih => exact ih.evaluateAt hnode.coherent path host

end Node
end LiveStyle
