import LiveStyle.Proofs.Evaluation.Places

/-! # Literals in other units

The unit in which a literal is written does not matter.  Terms whose literals are equal in base
units become trees of one shape that read the environment alike, fault alike, and have equal values
wherever an operator stands; elsewhere the values are equal in base units.
-/
namespace LiveStyle

namespace Quantity
variable {policy : DivisionPolicy} {symbol : String} {l l' r r' : Quantity}

/-- What operands come to depends on them only up to base units. -/
theorem combine_congr (hl : l.toBase = l'.toBase) (hr : r.toBase = r'.toBase) :
    combine policy symbol l r = combine policy symbol l' r' := by
  rw [combine, combine, hl, hr]

theorem combineOrZero_congr (hl : l.toBase = l'.toBase) (hr : r.toBase = r'.toBase) :
    combineOrZero policy symbol l r = combineOrZero policy symbol l' r' := by
  rw [combineOrZero, combineOrZero, combine_congr hl hr]

theorem fault_degradation?_congr (hl : l.toBase = l'.toBase) (hr : r.toBase = r'.toBase) :
    (degradation? policy symbol l r).map Degradation.fault =
      (degradation? policy symbol l' r').map Degradation.fault := by
  rw [degradation?, degradation?, combine_congr hl hr]
  cases combine policy symbol l' r' <;> rfl

end Quantity

namespace Term

mutual

def toBase : Term → Term
  | number quantity => number quantity.toBase
  | call name arguments => call name (toBaseArguments arguments)
  | term => term

def toBaseArguments : List (List Term) → List (List Term)
  | [] => []
  | terms :: arguments => toBaseTerms terms :: toBaseArguments arguments

def toBaseTerms : List Term → List Term
  | [] => []
  | term :: terms => toBase term :: toBaseTerms terms

end

/-- Terms that differ in the units of their literals alone. -/
def SameInBase (a b : Term) : Prop := a.Matches (fun p q => p.toBase = q.toBase) b

theorem toBaseTerms_eq_map (terms : List Term) : toBaseTerms terms = terms.map toBase := by
  induction terms with
  | nil => rfl
  | cons term terms ih => rw [toBaseTerms, ih, List.map_cons]

theorem toBaseArguments_eq_map (arguments : List (List Term)) :
    toBaseArguments arguments = arguments.map (List.map toBase) := by
  induction arguments with
  | nil => rfl
  | cons terms arguments ih => rw [toBaseArguments, toBaseTerms_eq_map, ih, List.map_cons]

theorem sameInBase_toBase (term : Term) : term.SameInBase term.toBase := by
  induction term with
  | number quantity => exact .number quantity.toBase_toBase.symm
  | identifier name => exact .identifier name
  | operator symbol => exact .operator symbol
  | call name arguments ih =>
    rw [toBase, toBaseArguments_eq_map]
    refine .call name (List.forall₂_map_right_iff.mpr (List.forall₂_same.mpr ?_))
    intro terms hterms
    exact List.forall₂_map_right_iff.mpr (List.forall₂_same.mpr (ih terms hterms))

end Term

namespace Node

def isOperator : Node → Bool
  | operator .. => true
  | _ => false

def SameInBase (m n : Node) : Prop := m.Matches (fun p q => p.toBase = q.toBase) Eq n

/-- Two nodes that cannot be told apart but by the unit of a value that no operator gives. -/
structure AgreeInBase (m n : Node) : Prop where
  buildError?_eq : m.buildError? = n.buildError?
  isConstant_eq : m.isConstant = n.isConstant
  /-- Evaluations of the two come to every place with the source in the same state. -/
  arrival_eq : ∀ (σ : Type) [ScrollSource σ] (host other : Host σ), host.source = other.source →
    ∀ path, (m.arrival path host).source = (n.arrival path other).source
  source_eq : ∀ (σ : Type) [ScrollSource σ] (host other : Host σ), host.source = other.source →
    (m.evaluate host).host.source = (n.evaluate other).host.source
  toBase_value_eq : ∀ (σ : Type) [ScrollSource σ] (host other : Host σ),
    host.source = other.source →
      (m.evaluate host).value.toBase = (n.evaluate other).value.toBase
  value_eq : m.isOperator = true → ∀ (σ : Type) [ScrollSource σ] (host other : Host σ),
    host.source = other.source → (m.evaluate host).value = (n.evaluate other).value
  fault?_eq : ∀ (σ : Type) [ScrollSource σ] (host other : Host σ), host.source = other.source →
    m.fault? host = n.fault? other

theorem sameInBase_leaf (policy : DivisionPolicy) {a b : Term} (h : a.SameInBase b) :
    (leaf policy a).SameInBase (leaf policy b) := by
  refine matches_leaf ?_ ?_ h
  · rfl
  · rfl

section TwoRuns
variable {m n : Node} {σ : Type} [ScrollSource σ] {host other : Host σ}

theorem SameInBase.toBase_live (h : m.SameInBase n) (source : σ) :
    (m.live source).1.toBase = (n.live source).1.toBase := by
  induction h generalizing source with
  | literal hquantity => exact hquantity
  | environment identifier => rfl
  | operator symbol hl _ hpolicy _ ihl ihr =>
    subst hpolicy
    rw [live, live]
    refine congrArg Quantity.toBase (Quantity.combineOrZero_congr (ihl source) ?_)
    rw [live_snd, live_snd, hl.snapshots_eq]
    exact ihr _
  | calculation _ _ ih => exact ih source
  | broken error _ => rfl

theorem SameInBase.live_snd (h : m.SameInBase n) (source : σ) :
    (m.live source).2 = (n.live source).2 := by
  rw [Node.live_snd, Node.live_snd, Matches.snapshots_eq h]

theorem SameInBase.source_evaluate (h : m.SameInBase n) (hm : m.Coherent) (hn : n.Coherent)
    (hsource : host.source = other.source) :
    (m.evaluate host).host.source = (n.evaluate other).host.source := by
  rw [(faithful_evaluate hm host).source_eq, (faithful_evaluate hn other).source_eq, hsource,
    h.live_snd]

theorem SameInBase.toBase_evaluate (h : m.SameInBase n) (hm : m.Coherent) (hn : n.Coherent)
    (hsource : host.source = other.source) :
    (m.evaluate host).value.toBase = (n.evaluate other).value.toBase := by
  rw [(faithful_evaluate hm host).value_eq, (faithful_evaluate hn other).value_eq, hsource,
    h.toBase_live]

/-- The operands of matching operators are equal in base units, since the left ones leave the
source in the same state. -/
theorem SameInBase.toBase_operands {left left' right right' : Node} (hl : left.SameInBase left')
    (hr : right.SameInBase right') (hleft : left.Coherent) (hleft' : left'.Coherent)
    (hright : right.Coherent) (hright' : right'.Coherent)
    (hsource : host.source = other.source) :
    (left.evaluate host).value.toBase = (left'.evaluate other).value.toBase ∧
      (right.evaluate (left.evaluate host).host).value.toBase =
        (right'.evaluate (left'.evaluate other).host).value.toBase :=
  ⟨hl.toBase_evaluate hleft hleft' hsource,
    hr.toBase_evaluate hright hright' (hl.source_evaluate hleft hleft' hsource)⟩

theorem SameInBase.agree (h : m.SameInBase n) (hm : m.Coherent) (hn : n.Coherent) :
    m.AgreeInBase n where
  buildError?_eq := Matches.buildError?_eq h
  isConstant_eq := Matches.isConstant_eq h
  arrival_eq _ _ host other hsource path := by
    rw [hm.source_arrival, hn.source_arrival, Matches.snapshotsBefore_eq h, hsource]
  source_eq _ _ _ _ hsource := h.source_evaluate hm hn hsource
  toBase_value_eq _ _ _ _ hsource := h.toBase_evaluate hm hn hsource
  value_eq hoperator _ _ host other hsource := by
    cases h with
    | operator symbol hl hr hpolicy _ =>
      obtain ⟨hleft, hright⟩ :=
        SameInBase.toBase_operands hl hr hm.1 hn.1 hm.2.1 hn.2.1 hsource
      rw [hm.value_operator, hn.value_operator, hpolicy]
      exact Quantity.combineOrZero_congr hleft hright
    | _ => cases hoperator
  fault?_eq _ _ host other hsource := by
    cases h with
    | operator symbol hl hr hpolicy _ =>
      obtain ⟨hleft, hright⟩ :=
        SameInBase.toBase_operands hl hr hm.1 hn.1 hm.2.1 hn.2.1 hsource
      rw [fault?, fault?, degradation?, degradation?, hpolicy]
      exact Quantity.fault_degradation?_congr hleft hright
    | _ => rfl

end TwoRuns

end Node
end LiveStyle
