import LiveStyle.Proofs.Tree.Induction
import LiveStyle.Tree.Evaluate

/-! # Values without memory

The live value of a node is computed afresh from the source each time, in the order in
which an evaluation visits the nodes.  A node without environment readings has a fixed
value, whatever the source.  Memory is kept in order when every memo agrees with the fixed
value of its node; then an evaluation gives the live value, leaves the source as the live
computation does, and keeps memory in order.
-/
namespace LiveStyle

/-- A combination in which a fault becomes zero. -/
def Quantity.combineOrZero (policy : DivisionPolicy) (symbol : String) (left right : Quantity) :
    Quantity :=
  match combine policy symbol left right with
  | .ok result => result
  | .error _ => zero

namespace Memo

variable {α : Type}

/-- A memo agrees with the value that its node always has, or with there being none. -/
structure Fits (memo : Memo α) (value : Option α) : Prop where
  constant_eq : memo.constant = value.isSome
  value_eq : ∀ a, memo.value = some a → value = some a

theorem fits_fresh {constant : Bool} {value : Option α} (h : constant = value.isSome) :
    (fresh constant).Fits value :=
  ⟨h, nofun⟩

theorem Fits.remembered_eq {memo : Memo α} {value : Option α} (h : memo.Fits value) {a : α}
    (ha : memo.remembered = some a) : value = some a := by
  unfold remembered at ha
  split at ha
  · exact h.value_eq a ha
  · cases ha

theorem Fits.keep {memo : Memo α} {value : Option α} (h : memo.Fits value) {a : α}
    (ha : memo.constant = true → value = some a) : (memo.keep a).Fits value := by
  unfold Memo.keep
  split
  next hconstant =>
    refine ⟨h.constant_eq, ?_⟩
    rintro b ⟨⟩
    exact ha hconstant
  next => exact h

end Memo

namespace Node

/-- What an environment node yields from a snapshot taken now; an unknown name takes none. -/
def snapshot {σ : Type} [ScrollSource σ] (identifier : Option String) (source : σ) : Quantity × σ :=
  if identifier = some Variable.windowScrollY.name then
    let (metrics, source) := ScrollSource.metrics source
    (.unitless metrics.fraction, source)
  else (.zero, source)

/-- The value of a node now, computed without memory, and the source after it. -/
def live {σ : Type} [ScrollSource σ] : Node → σ → Quantity × σ
  | literal quantity, source => (quantity, source)
  | environment identifier, source => snapshot identifier source
  | operator symbol left right policy _, source =>
    let l := left.live source
    let r := right.live l.2
    (.combineOrZero policy symbol l.1 r.1, r.2)
  | calculation inner _, source => inner.live source
  | broken _ _, source => (.zero, source)

/-- The value of a node without environment readings. -/
def fixed? : Node → Option Quantity
  | literal quantity => some quantity
  | environment _ => none
  | operator symbol left right policy _ =>
    match left.fixed?, right.fixed? with
    | some l, some r => some (.combineOrZero policy symbol l r)
    | _, _ => none
  | calculation inner _ => inner.fixed?
  | broken _ _ => some .zero

/-- The tree with nothing remembered. -/
def forget : Node → Node
  | operator symbol left right policy memo =>
    operator symbol left.forget right.forget policy (.fresh memo.constant)
  | calculation inner memo => calculation inner.forget (.fresh memo.constant)
  | broken error memo => broken error (.fresh memo.constant)
  | node => node

/-- Every memo in the tree agrees with the fixed value of its node. -/
def Coherent : Node → Prop
  | literal _ => True
  | environment _ => True
  | operator symbol left right policy memo =>
    left.Coherent ∧ right.Coherent ∧ memo.Fits (operator symbol left right policy memo).fixed?
  | calculation inner memo => inner.Coherent ∧ memo.Fits inner.fixed?
  | broken _ memo => memo.Fits (some .zero)

section Fixed

/-- In a coherent tree the constant nodes are those with a fixed value. -/
theorem Coherent.isConstant_eq {node : Node} (h : node.Coherent) :
    node.isConstant = node.fixed?.isSome := by
  cases node with
  | literal quantity => rfl
  | environment identifier => rfl
  | operator symbol left right policy memo => exact h.2.2.constant_eq
  | calculation inner memo => exact h.2.constant_eq
  | broken error memo => exact h.constant_eq

theorem isSome_fixed?_operator (symbol : String) (left right : Node) (policy : DivisionPolicy)
    (memo : Memo Quantity) :
    (operator symbol left right policy memo).fixed?.isSome =
      (left.fixed?.isSome && right.fixed?.isSome) := by
  rw [fixed?]
  cases left.fixed? <;> cases right.fixed? <;> rfl

theorem live_of_fixed? {σ : Type} [ScrollSource σ] {node : Node} {value : Quantity}
    (h : node.fixed? = some value) (source : σ) : node.live source = (value, source) := by
  induction node generalizing value with
  | literal quantity =>
    cases h
    rfl
  | environment identifier => cases h
  | operator symbol left right policy memo ihl ihr =>
    rw [fixed?] at h
    split at h
    next l r hl hr =>
      cases h
      rw [live, ihl hl, ihr hr]
    next => cases h
  | calculation inner memo ih => exact ih h
  | broken error memo =>
    cases h
    rfl

theorem fixed?_of_isSome {σ : Type} [ScrollSource σ] {node : Node}
    (h : node.fixed?.isSome = true) (source : σ) : node.fixed? = some (node.live source).1 := by
  obtain ⟨value, hvalue⟩ := Option.isSome_iff_exists.mp h
  rw [hvalue, live_of_fixed? hvalue]

@[simp] theorem fixed?_forget (node : Node) : node.forget.fixed? = node.fixed? := by
  induction node with
  | operator symbol left right policy memo ihl ihr => rw [forget, fixed?, fixed?, ihl, ihr]
  | calculation inner memo ih => exact ih
  | _ => rfl

@[simp] theorem live_forget {σ : Type} [ScrollSource σ] (node : Node) (source : σ) :
    node.forget.live source = node.live source := by
  induction node generalizing source with
  | operator symbol left right policy memo ihl ihr => rw [forget, live, live, ihl, ihr]
  | calculation inner memo ih => exact ih source
  | _ => rfl

theorem coherent_join (policy : DivisionPolicy) (symbol : String) {left right : Node}
    (hl : left.Coherent) (hr : right.Coherent) : (join policy symbol left right).Coherent := by
  refine ⟨hl, hr, Memo.fits_fresh ?_⟩
  rw [isSome_fixed?_operator, hl.isConstant_eq, hr.isConstant_eq]

theorem coherent_enclose {inner : Node} (h : inner.Coherent) : (enclose inner).Coherent :=
  ⟨h, Memo.fits_fresh h.isConstant_eq⟩

theorem coherent_fail (error : BuildError) : (fail error).Coherent := Memo.fits_fresh rfl

theorem coherent_leaf (policy : DivisionPolicy) (term : Term) : (leaf policy term).Coherent :=
  leaf_induction (fun _ => trivial) (fun _ => trivial)
    (fun symbol _ _ hl hr => coherent_join policy symbol hl hr) (fun _ => coherent_enclose)
    coherent_fail term

theorem coherent_ofCalculation (policy : DivisionPolicy) (name : String)
    (arguments : List (List Term)) (log : Log) :
    (ofCalculation policy name arguments log).1.Coherent := by
  rw [ofCalculation_eq_leaf]
  exact coherent_leaf policy _

end Fixed

end Node
end LiveStyle
