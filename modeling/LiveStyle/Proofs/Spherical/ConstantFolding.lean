import LiveStyle.Proofs.Evaluation.Constancy
import LiveStyle.Proofs.Spherical.Interchange

/-! # Folding constants, and what a broken part amounts to

The node of a constant term has a fixed value, so the literal of this value can be written for the
term.  What means nothing as an operand, and a calculation that cannot be built, is a constant zero:
nothing around it can tell.
-/
namespace LiveStyle

namespace Node

theorem Coherent.fixed?_of_isConstant {σ : Type} [ScrollSource σ] {node : Node} (h : node.Coherent)
    (hconstant : node.isConstant = true) (host : Host σ) :
    node.fixed? = some (node.evaluate host).value := by
  rw [h.isConstant_eq] at hconstant
  rw [(faithful_evaluate h host).value_eq]
  exact fixed?_of_isSome hconstant host.source

/-- A calculation that cannot be built is fixed at zero. -/
theorem fixed?_of_buildError? {node : Node} (h : node.buildError?.isSome = true) :
    node.fixed? = some .zero := by
  cases node with
  | broken error memo => rfl
  | _ => cases h

end Node

namespace Term
open Node

theorem exchangeable_number {policy : DivisionPolicy} {term : Term} {quantity : Quantity}
    (h : (leaf policy term).fixed? = some quantity) :
    term.Exchangeable policy (number quantity) :=
  exchangeable_of_interchangeable (.literal h)

theorem leaf_unknown (policy : DivisionPolicy) {name : String} (hcalc : name ≠ "calc")
    (henv : name ≠ "env") (arguments : List (List Term)) :
    leaf policy (call name arguments) = zero := by
  have hname : Builtin.ofName? name = none := by
    cases h : Builtin.ofName? name with
    | none => rfl
    | some f =>
      have hf := Builtin.ofName?_eq_some_iff.mp h
      cases f with
      | calculation => exact absurd hf hcalc
      | environment => exact absurd hf henv
  simp only [leaf, ofTerm, hname]

end Term

/-- The literal of its value can be written for a constant term, wherever the term is evaluated.  So
an identifier, a call of an unknown function and a calculation that cannot be built, whatever is in
it, are as good as the literal zero. -/
theorem constants_fold :
    (∀ (policy : DivisionPolicy) (term : Term) (log : Log),
      let node := (Node.ofTerm policy term log).1
      node.isConstant = true → ∀ (σ : Type) [ScrollSource σ] (host : Host σ),
        term.Exchangeable policy (.number (node.evaluate host).value)) ∧
    (∀ (policy : DivisionPolicy) (name : String),
      (Term.identifier name).Exchangeable policy (.number .zero)) ∧
    (∀ (policy : DivisionPolicy) (name : String) (arguments : List (List Term)),
      name ≠ "calc" → name ≠ "env" →
        (Term.call name arguments).Exchangeable policy (.number .zero)) ∧
    ∀ (policy : DivisionPolicy) (arguments : List (List Term)) (log : Log),
      (Node.ofCalculation policy "calc" arguments log).1.buildError?.isSome = true →
        (Term.call "calc" arguments).Exchangeable policy (.number .zero) := by
  refine ⟨?_, ?_, ?_, ?_⟩
  · intro policy term log node hconstant σ _ host
    simp only [node, Node.ofTerm_fst] at hconstant ⊢
    exact Term.exchangeable_number
      ((Node.coherent_leaf policy term).fixed?_of_isConstant hconstant host)
  · exact fun policy name => Term.exchangeable_number rfl
  · intro policy name arguments hcalc henv
    apply Term.exchangeable_number
    rw [Term.leaf_unknown policy hcalc henv]
    rfl
  · intro policy arguments log herror
    apply Term.exchangeable_number
    rw [Node.ofCalculation_eq_leaf] at herror
    exact Node.fixed?_of_buildError? herror

/-- A metre and a half in the place of its sum, below a reading, and zero in the place of a reading
that lacks an operand; both in one product, as the azimuth and on its own. -/
theorem constants_fold_sum :
    let progress := Term.call "env" [[.identifier "window-scroll-y"]]
    let sum := Term.call "calc"
      [[.number ⟨1, some .metre⟩, .operator "+", .number ⟨50, some .centimetre⟩]]
    let half := Term.number ⟨1.5, some .metre⟩
    let dangling := Term.call "calc" [[progress, .operator "+"]]
    let product := fun factor => Term.call "calc" [[factor, .operator "*", progress]]
    let spherical := fun azimuth => (Spherical.ofExpressions .zero [[azimuth]] #[]).1
    (Node.leaf .zero sum).isConstant = true ∧ sum.Exchangeable .zero half ∧
      (spherical (product sum)).AnswerAlike (spherical (product half)) ∧
      (Node.leaf .zero dangling).buildError? = some (.danglingOperator "+") ∧
      (Node.leaf .zero (product dangling)).AnswerAlike
        (Node.leaf .zero (product (.number .zero))) := by
  intro progress sum half dangling product spherical
  obtain ⟨hconstants, -, -, hbroken⟩ := constants_fold
  have hconstant : (Node.leaf .zero sum).isConstant = true := by decide
  have hvalue : ((Node.leaf .zero sum).evaluate (⟨⟨⟩, #[]⟩ : Host Detached)).value =
      ⟨1.5, some .metre⟩ := by decide +kernel
  have hsum : sum.Exchangeable .zero half := by
    have h := hconstants .zero sum #[] hconstant Detached ⟨⟨⟩, #[]⟩
    rw [Node.ofTerm_fst, hvalue] at h
    exact h
  have herror : (Node.leaf .zero dangling).buildError? = some (.danglingOperator "+") := by decide
  have hdangling := hbroken .zero [[progress, .operator "+"]] #[] (by decide)
  let frame : Term.Frame := ⟨[], [], [.operator "*", progress], []⟩
  refine ⟨hconstant, hsum, ?_, herror, ?_⟩
  · exact hsum.operandOfComponent rfl rfl ⟨[], [], []⟩ frame [] #[] #[]
  · exact (hdangling.operand rfl rfl "calc" frame [] #[] #[]).2.2

end LiveStyle
