import LiveStyle.Proofs.Tree.Passes

/-! # Induction over terms and built trees

Terms nest through lists of arguments; the induction principle gives its hypothesis for
every term of every argument.  A property of nodes that literals and environment readings
have, and that joining and enclosing keep, holds of whatever is built from terms.
-/
namespace LiveStyle

/-- Structural induction: a call may assume the property of the terms in its arguments. -/
@[elab_as_elim, induction_eliminator]
theorem Term.induction {motive : Term → Prop} (number : ∀ quantity, motive (.number quantity))
    (identifier : ∀ name, motive (.identifier name))
    (operator : ∀ symbol, motive (.operator symbol))
    (call : ∀ name arguments, (∀ terms ∈ arguments, ∀ term ∈ terms, motive term) →
      motive (.call name arguments)) : ∀ term, motive term
  | .number quantity => number quantity
  | .identifier name => identifier name
  | .operator symbol => operator symbol
  | .call name arguments =>
    call name arguments fun _ _hterms term _hterm =>
      Term.induction number identifier operator call term
termination_by term => sizeOf term
decreasing_by
  have hinner := List.sizeOf_lt_of_mem _hterm
  have houter := List.sizeOf_lt_of_mem _hterms
  simp only [Term.call.sizeOf_spec]
  omega

namespace Slot
open Node

variable {P : Node → Prop} {policy : DivisionPolicy}

def AllOperands (P : Node → Prop) (slots : List Slot) : Prop :=
  ∀ node, operand node ∈ slots → P node

theorem allOperands_cons {slot : Slot} {slots : List Slot} :
    AllOperands P (slot :: slots) ↔
      (∀ node, slot = operand node → P node) ∧ AllOperands P slots := by
  constructor
  · intro h
    exact ⟨fun node heq => h node (by simp [heq]), fun node hmem => h node (by simp [hmem])⟩
  · rintro ⟨hslot, hslots⟩ node hmem
    rcases List.mem_cons.mp hmem with heq | hmem
    · exact hslot node heq.symm
    · exact hslots node hmem

theorem allOperands_push
    (hjoin : ∀ symbol left right, P left → P right → P (join policy symbol left right))
    {stack next : List Slot} {slot : Slot} (hstack : AllOperands P stack)
    (hslot : ∀ node, slot = operand node → P node) (h : push policy stack slot = .ok next) :
    AllOperands P next := by
  rcases push_cases h with ⟨symbol, left, right, below, -, rfl, rfl, rfl⟩ | ⟨-, rfl⟩
  · obtain ⟨-, hstack⟩ := allOperands_cons.mp hstack
    obtain ⟨hleft, hbelow⟩ := allOperands_cons.mp hstack
    refine allOperands_cons.mpr ⟨?_, hbelow⟩
    rintro node ⟨⟩
    exact hjoin symbol left right (hleft left rfl) (hslot right rfl)
  · exact allOperands_cons.mpr ⟨hslot, hstack⟩

theorem allOperands_tightPass
    (hjoin : ∀ symbol left right, P left → P right → P (join policy symbol left right))
    {slots stack done : List Slot} (hstack : AllOperands P stack) (hslots : AllOperands P slots)
    (h : tightPass policy slots stack = .ok done) : AllOperands P done := by
  refine tightPass_induction (motive := fun slots stack =>
    AllOperands P stack → AllOperands P slots → AllOperands P done) ?_ ?_ h hstack hslots
  · exact fun hdone _ => hdone
  · intro slot slots stack next hpush ih hstack hslots
    obtain ⟨hslot, hslots⟩ := allOperands_cons.mp hslots
    exact ih (allOperands_push hjoin hstack hslot hpush) hslots

theorem chain_induction
    (hjoin : ∀ symbol left right, P left → P right → P (join policy symbol left right))
    {tree result : Node} {slots : List Slot} (htree : P tree) (hslots : AllOperands P slots)
    (h : chain policy tree slots = .ok result) : P result := by
  induction tree, slots using chain.induct policy with
  | case1 tree =>
    cases h
    exact htree
  | case5 tree symbol right rest ih =>
    obtain ⟨-, hslots⟩ := allOperands_cons.mp hslots
    obtain ⟨hright, hrest⟩ := allOperands_cons.mp hslots
    exact ih (hjoin symbol tree right htree (hright right rfl)) hrest h
  | _ => cases h

/-- What joining keeps passes from the operands to the tree. -/
theorem build_induction
    (hjoin : ∀ symbol left right, P left → P right → P (join policy symbol left right))
    {slots : List Slot} (hslots : AllOperands P slots) {tree : Node}
    (h : build policy slots = .ok tree) : P tree := by
  obtain ⟨stack, hpass, hloose⟩ := build_eq_ok h
  have hnil : AllOperands P [] := by simp [AllOperands]
  have hstack : AllOperands P stack := allOperands_tightPass hjoin hnil hslots hpass
  have hreverse : AllOperands P stack.reverse := fun node hmem => hstack node (by simpa using hmem)
  generalize stack.reverse = bottom at hreverse hloose
  rcases bottom with _ | ⟨first | symbol, rest⟩
  · cases hloose
  · obtain ⟨hfirst, hrest⟩ := allOperands_cons.mp hreverse
    exact chain_induction hjoin (hfirst first rfl) hrest hloose
  · cases hloose

end Slot

namespace Node
open Slot

section Built
variable {P : Node → Prop} {policy : DivisionPolicy}
  (hliteral : ∀ quantity, P (literal quantity))
  (henvironment : ∀ identifier, P (environment identifier))
  (hjoin : ∀ symbol left right, P left → P right → P (join policy symbol left right))
  (henclose : ∀ inner, P inner → P (enclose inner)) (hfail : ∀ error, P (fail error))
include hliteral henvironment hjoin henclose hfail

omit hliteral henvironment in
private theorem ofCalculation_step (arguments : List (List Term))
    (ih : ∀ terms ∈ arguments, ∀ term ∈ terms, P (leaf policy term)) :
    P (ofCalculation policy "calc" arguments #[]).1 := by
  by_cases h : arguments.length = 1
  · obtain ⟨terms, rfl⟩ := List.length_eq_one_iff.mp h
    rw [ofCalculation_fst]
    cases hbuild : build policy (terms.map (Slot.ofTerm policy)) with
    | error error => exact hfail error
    | ok tree =>
      apply henclose
      apply build_induction hjoin _ hbuild
      intro node hmem
      obtain ⟨term, hterm, heq⟩ := List.mem_map.mp hmem
      rw [ofTerm_of_operand policy (ofTerm_eq_operand heq)] at heq
      cases heq
      exact ih terms (by simp) term hterm
  · rw [ofCalculation_fst_of_length_ne_one policy "calc" h]
    exact hfail _

/-- What holds of literals and readings and is kept by joining and enclosing holds of every
node that a term becomes. -/
theorem leaf_induction (term : Term) : P (leaf policy term) := by
  induction term with
  | number quantity => exact hliteral quantity
  | identifier name => exact hliteral _
  | operator symbol => exact hliteral _
  | call name arguments ih =>
    simp only [leaf, ofTerm]
    split
    next hname =>
      rw [ofCalculation_eq_leaf]
      exact ofCalculation_step hjoin henclose hfail arguments ih
    · exact henvironment _
    · exact hliteral _

end Built

end Node
end LiveStyle
