import LiveStyle.Proofs.Tree.Passes

/-! # Reading a tree in order

Read from left to right through its operators, a tree gives back the slots it was joined
from.  A term of its own never stands as an operator node, so after every step of the
passes the stack reads as the terms placed so far: none is lost, repeated or moved.
-/
namespace LiveStyle

namespace Node
open Slot

/-- Operands and operators from left to right; what is not an operator node stays closed. -/
def reading : Node → List Slot
  | operator symbol left right _ _ => left.reading ++ .operator symbol :: right.reading
  | node => [.operand node]

@[simp] theorem reading_join (policy : DivisionPolicy) (symbol : String) (left right : Node) :
    (join policy symbol left right).reading =
      left.reading ++ .operator symbol :: right.reading := rfl

@[simp] theorem reading_ofBuild (result : Except BuildError Node) :
    (ofBuild result).reading = [.operand (ofBuild result)] := by
  cases result <;> rfl

theorem exists_ofBuild (policy : DivisionPolicy) (name : String) (arguments : List (List Term))
    (log : Log) : ∃ result, (ofCalculation policy name arguments log).1 = ofBuild result := by
  by_cases h : arguments.length = 1
  · obtain ⟨terms, rfl⟩ := List.length_eq_one_iff.mp h
    exact ⟨_, ofCalculation_fst policy name terms log⟩
  · exact ⟨.error _, ofCalculation_fst_of_length_ne_one policy name h log⟩

@[simp] theorem reading_leaf (policy : DivisionPolicy) (term : Term) :
    (leaf policy term).reading = [.operand (leaf policy term)] := by
  cases term with
  | call name arguments =>
    simp only [leaf, ofTerm]
    split
    · obtain ⟨result, h⟩ := exists_ofBuild policy name arguments #[]
      rw [h, reading_ofBuild]
    · rfl
    · rfl
  | _ => rfl

/-- A reading begins with an operand, whatever was joined. -/
theorem reading_eq_cons (node : Node) :
    ∃ first rest, node.reading = .operand first :: rest := by
  induction node with
  | operator symbol left right policy memo ihl ihr =>
    obtain ⟨first, rest, h⟩ := ihl
    exact ⟨first, rest ++ .operator symbol :: right.reading, by rw [reading, h]; rfl⟩
  | _ => exact ⟨_, [], rfl⟩

theorem reading_eq_concat (node : Node) :
    ∃ init last, node.reading = init ++ [.operand last] := by
  induction node with
  | operator symbol left right policy memo ihl ihr =>
    obtain ⟨init, last, h⟩ := ihr
    exact ⟨left.reading ++ .operator symbol :: init, last, by simp [reading, h]⟩
  | _ => exact ⟨[], _, rfl⟩

end Node

namespace Slot
open Node

def reading : Slot → List Slot
  | operand node => node.reading
  | operator symbol => [operator symbol]

@[simp] theorem reading_ofTerm (policy : DivisionPolicy) (term : Term) :
    (ofTerm policy term).reading = [ofTerm policy term] := by
  cases term with
  | operator symbol => rfl
  | _ => exact reading_leaf policy _

/-- The readings of a list of slots, one after the other. -/
def readings (slots : List Slot) : List Slot := slots.flatMap reading

@[simp] theorem readings_nil : readings [] = [] := rfl

@[simp] theorem readings_cons (slot : Slot) (slots : List Slot) :
    readings (slot :: slots) = slot.reading ++ readings slots := rfl

@[simp] theorem readings_append (xs ys : List Slot) :
    readings (xs ++ ys) = readings xs ++ readings ys :=
  List.flatMap_append

@[simp] theorem readings_map_ofTerm (policy : DivisionPolicy) (terms : List Term) :
    readings (terms.map (ofTerm policy)) = terms.map (ofTerm policy) := by
  induction terms with
  | nil => rfl
  | cons term terms ih => simp [ih]

/-- A step adds the new slot to what the stack reads from its bottom. -/
theorem readings_push {policy : DivisionPolicy} {stack next : List Slot} {slot : Slot}
    (h : push policy stack slot = .ok next) :
    readings next.reverse = readings stack.reverse ++ slot.reading := by
  rcases push_cases h with ⟨symbol, left, right, below, -, rfl, rfl, rfl⟩ | ⟨-, rfl⟩
  · simp [reading]
  · simp

theorem readings_tightPass {policy : DivisionPolicy} {slots stack done : List Slot}
    (h : tightPass policy slots stack = .ok done) :
    readings done.reverse = readings stack.reverse ++ readings slots := by
  refine tightPass_induction (motive := fun slots stack =>
    readings done.reverse = readings stack.reverse ++ readings slots) ?_ ?_ h
  · simp
  · intro slot slots stack next hpush ih
    rw [ih, readings_push hpush, readings_cons, List.append_assoc]

theorem readings_chain {policy : DivisionPolicy} {tree result : Node} {slots : List Slot}
    (h : chain policy tree slots = .ok result) :
    result.reading = tree.reading ++ readings slots := by
  induction tree, slots using chain.induct policy with
  | case1 tree =>
    cases h
    simp
  | case5 tree symbol right rest ih =>
    rw [ih h]
    simp [reading]
  | _ => cases h

theorem readings_foldLoose {policy : DivisionPolicy} {slots : List Slot} {result : Node}
    (h : foldLoose policy slots = .ok result) : result.reading = readings slots := by
  rcases slots with _ | ⟨first | symbol, rest⟩
  · cases h
  · exact readings_chain h
  · cases h

/-- A tree that is built reads as the slots it is built from. -/
theorem reading_of_build {policy : DivisionPolicy} {slots : List Slot} {tree : Node}
    (h : build policy slots = .ok tree) : tree.reading = readings slots := by
  obtain ⟨stack, hpass, hloose⟩ := build_eq_ok h
  rw [readings_foldLoose hloose, readings_tightPass hpass]
  rfl

end Slot
end LiveStyle
