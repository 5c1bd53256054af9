import LiveStyle.Proofs.Tree.Induction
import Mathlib.Data.List.Forall2

/-! # Trees of one shape

Two terms match when they are written alike but for their numbers, and two trees when they are
built alike but for their literals, policies and memory.  Both passes treat slots that match alike:
they fail with the same error or go on to stacks that match.  So matching terms become matching
trees.
-/
namespace LiveStyle

namespace Term

/-- Written alike, with related quantities in the places of the numbers. -/
inductive Matches (literals : Quantity → Quantity → Prop) : Term → Term → Prop
  | number {p q : Quantity} : literals p q → Matches literals (number p) (number q)
  | identifier (name : String) : Matches literals (identifier name) (identifier name)
  | operator (symbol : String) : Matches literals (operator symbol) (operator symbol)
  | call (name : String) {arguments arguments' : List (List Term)} :
      List.Forall₂ (List.Forall₂ (Matches literals)) arguments arguments' →
      Matches literals (call name arguments) (call name arguments')

variable {literals : Quantity → Quantity → Prop}

theorem forall₂_imp_of_mem {R S : Term → Term → Prop} {arguments arguments' : List (List Term)}
    (himp : ∀ terms ∈ arguments, ∀ term ∈ terms, ∀ other, R term other → S term other)
    (h : List.Forall₂ (List.Forall₂ R) arguments arguments') :
    List.Forall₂ (List.Forall₂ S) arguments arguments' := by
  refine List.Forall₂.imp ?_ ((List.forall₂_and_left arguments arguments').mpr ⟨himp, h⟩)
  rintro terms terms' ⟨himp, h⟩
  refine List.Forall₂.imp ?_ ((List.forall₂_and_left terms terms').mpr ⟨himp, h⟩)
  rintro term other ⟨himp, h⟩
  exact himp other h

theorem matches_refl (hliterals : ∀ q, literals q q) (term : Term) :
    term.Matches literals term := by
  induction term with
  | number q => exact .number (hliterals q)
  | identifier name => exact .identifier name
  | operator symbol => exact .operator symbol
  | call name arguments ih =>
    refine .call name (List.forall₂_same.mpr fun terms hterms => ?_)
    exact List.forall₂_same.mpr (ih terms hterms)

theorem Matches.environmentName_eq {arguments arguments' : List (List Term)}
    (h : List.Forall₂ (List.Forall₂ (Matches literals)) arguments arguments') :
    Node.environmentName arguments = Node.environmentName arguments' := by
  cases h with
  | nil => rfl
  | cons hterms _ =>
    cases hterms with
    | nil => rfl
    | cons hterm _ => cases hterm <;> rfl

end Term

namespace Slot
open Node

/-- The same error, or results that are related. -/
inductive SameOutcome {α β : Type} (R : α → β → Prop) :
    Except BuildError α → Except BuildError β → Prop
  | ok {a : α} {b : β} : R a b → SameOutcome R (.ok a) (.ok b)
  | error (error : BuildError) : SameOutcome R (.error error) (.error error)

inductive Matches (R : Node → Node → Prop) : Slot → Slot → Prop
  | operand {m n : Node} : R m n → Matches R (operand m) (operand n)
  | operator (symbol : String) : Matches R (operator symbol) (operator symbol)

section Passes
variable {R : Node → Node → Prop} {p q : DivisionPolicy}
  (hjoin : ∀ symbol {left left' right right' : Node}, R left left' → R right right' →
    R (join p symbol left right) (join q symbol left' right'))
include hjoin

theorem push_matches {stack stack' : List Slot} {slot slot' : Slot}
    (hstack : List.Forall₂ (Matches R) stack stack') (hslot : Matches R slot slot') :
    SameOutcome (List.Forall₂ (Matches R)) (push p stack slot) (push q stack' slot') := by
  cases hstack with
  | nil => exact .ok (.cons hslot .nil)
  | cons htop hbelow =>
    cases htop with
    | operand hleft => exact .ok (.cons hslot (.cons (.operand hleft) hbelow))
    | operator symbol =>
      cases htight : symbolBindsTight symbol with
      | false =>
        rw [push_loose p _ _ htight, push_loose q _ _ htight]
        exact .ok (.cons hslot (.cons (.operator symbol) hbelow))
      | true =>
        cases hbelow with
        | nil =>
          rw [push_missing p _ htight, push_missing q _ htight]
          exact .error _
        | cons hleft hbelow =>
          cases hleft with
          | operator found =>
            rw [push_operator_below p _ _ htight, push_operator_below q _ _ htight]
            exact .error _
          | operand hleft =>
            cases hslot with
            | operand hright =>
              rw [push_join p _ _ _ htight, push_join q _ _ _ htight]
              exact .ok (.cons (.operand (hjoin symbol hleft hright)) hbelow)
            | operator found =>
              rw [push_operator_above p _ _ htight, push_operator_above q _ _ htight]
              exact .error _

theorem tightPass_matches {slots slots' stack stack' : List Slot}
    (hslots : List.Forall₂ (Matches R) slots slots')
    (hstack : List.Forall₂ (Matches R) stack stack') :
    SameOutcome (List.Forall₂ (Matches R)) (tightPass p slots stack)
      (tightPass q slots' stack') := by
  induction hslots generalizing stack stack' with
  | nil => exact .ok hstack
  | @cons slot slot' slots slots' hslot _ ih =>
    have hpush := push_matches hjoin hstack hslot
    rw [tightPass, tightPass]
    generalize push p stack slot = result, push q stack' slot' = result' at hpush
    cases hpush with
    | ok hnext => exact ih hnext
    | error error => exact .error error

theorem chain_matches {slots slots' : List Slot} (hslots : List.Forall₂ (Matches R) slots slots')
    {tree tree' : Node} (htree : R tree tree') :
    SameOutcome R (chain p tree slots) (chain q tree' slots') := by
  induction tree, slots using chain.induct p generalizing tree' slots' with
  | case1 tree =>
    cases hslots
    exact .ok htree
  | case2 tree node rest =>
    obtain ⟨_, _, ⟨⟩, -, rfl⟩ := List.forall₂_cons_left_iff.mp hslots
    exact .error _
  | case3 tree symbol =>
    obtain ⟨_, _, ⟨⟩, ⟨⟩, rfl⟩ := List.forall₂_cons_left_iff.mp hslots
    exact .error _
  | case4 tree symbol found rest =>
    obtain ⟨_, _, ⟨⟩, hnext, rfl⟩ := List.forall₂_cons_left_iff.mp hslots
    obtain ⟨_, _, ⟨⟩, -, rfl⟩ := List.forall₂_cons_left_iff.mp hnext
    exact .error _
  | case5 tree symbol right rest ih =>
    obtain ⟨_, _, ⟨⟩, hnext, rfl⟩ := List.forall₂_cons_left_iff.mp hslots
    obtain ⟨_, _, ⟨hright⟩, hrest, rfl⟩ := List.forall₂_cons_left_iff.mp hnext
    exact ih hrest (hjoin symbol htree hright)

theorem foldLoose_matches {slots slots' : List Slot}
    (hslots : List.Forall₂ (Matches R) slots slots') :
    SameOutcome R (foldLoose p slots) (foldLoose q slots') := by
  cases hslots with
  | nil => exact .error _
  | cons hslot hrest =>
    cases hslot with
    | operand hfirst => exact chain_matches hjoin hrest hfirst
    | operator symbol => exact .error _

omit hjoin in
theorem matches_ofTerm {literals : Quantity → Quantity → Prop} {a b : Term}
    (h : a.Matches literals b) (hleaf : R (leaf p a) (leaf q b)) :
    Matches R (ofTerm p a) (ofTerm q b) := by
  cases h with
  | operator symbol => exact .operator symbol
  | _ => exact .operand hleaf

/-- Slots that match build trees that are related, or fail with the same error. -/
theorem build_matches {slots slots' : List Slot} (hslots : List.Forall₂ (Matches R) slots slots') :
    SameOutcome R (build p slots) (build q slots') := by
  have hpass := tightPass_matches hjoin hslots .nil
  unfold build
  generalize tightPass p slots [] = result, tightPass q slots' [] = result' at hpass
  cases hpass with
  | error error => exact .error error
  | ok hstack => exact foldLoose_matches hjoin (List.rel_reverse hstack)

end Passes
end Slot

namespace Node
open Slot

/-- Built alike, with related quantities in the places of the literals and related policies in the
operators.  Symbols, identifiers, errors and constant flags agree; what is remembered does not
count. -/
inductive Matches (literals : Quantity → Quantity → Prop)
    (policies : DivisionPolicy → DivisionPolicy → Prop) : Node → Node → Prop
  | literal {p q : Quantity} : literals p q → Matches literals policies (literal p) (literal q)
  | environment (identifier : Option String) :
      Matches literals policies (environment identifier) (environment identifier)
  | operator (symbol : String) {left left' right right' : Node} {policy policy' : DivisionPolicy}
      {memo memo' : Memo Quantity} : Matches literals policies left left' →
      Matches literals policies right right' → policies policy policy' →
      memo.constant = memo'.constant →
      Matches literals policies (operator symbol left right policy memo)
        (operator symbol left' right' policy' memo')
  | calculation {inner inner' : Node} {memo memo' : Memo Quantity} :
      Matches literals policies inner inner' → memo.constant = memo'.constant →
      Matches literals policies (calculation inner memo) (calculation inner' memo')
  | broken (error : BuildError) {memo memo' : Memo Quantity} : memo.constant = memo'.constant →
      Matches literals policies (broken error memo) (broken error memo')

variable {literals : Quantity → Quantity → Prop}
  {policies : DivisionPolicy → DivisionPolicy → Prop} {m n : Node}

theorem Matches.isConstant_eq (h : m.Matches literals policies n) :
    m.isConstant = n.isConstant := by
  cases h <;> first | rfl | assumption

theorem Matches.buildError?_eq (h : m.Matches literals policies n) :
    m.buildError? = n.buildError? := by
  cases h <;> rfl

theorem Matches.child (h : m.Matches literals policies n) (step : Step) :
    Option.Rel (Matches literals policies) (m.child? step) (n.child? step) := by
  cases h <;> cases step <;> constructor <;> assumption

/-- A path leads to nodes that match, or nowhere in both trees. -/
theorem Matches.descend (h : m.Matches literals policies n) (path : List Step) :
    Option.Rel (Matches literals policies) (descend? path m) (descend? path n) := by
  induction path generalizing m n with
  | nil => exact .some h
  | cons step path ih =>
    have hchild := h.child step
    rw [descend?, descend?]
    generalize m.child? step = child, n.child? step = child' at hchild
    cases hchild with
    | none => exact .none
    | some hchild => exact ih hchild

theorem matches_join {p q : DivisionPolicy} (hpolicy : policies p q) (symbol : String)
    {left left' right right' : Node} (hleft : left.Matches literals policies left')
    (hright : right.Matches literals policies right') :
    (join p symbol left right).Matches literals policies (join q symbol left' right') := by
  refine .operator symbol hleft hright hpolicy ?_
  simp only [Memo.fresh_constant, hleft.isConstant_eq, hright.isConstant_eq]

theorem matches_ofBuild {result result' : Except BuildError Node}
    (h : SameOutcome (Matches literals policies) result result') :
    (ofBuild result).Matches literals policies (ofBuild result') := by
  cases h with
  | ok hinner => exact .calculation hinner hinner.isConstant_eq
  | error error => exact .broken error rfl

theorem ofCalculation_sameOutcome {R : Node → Node → Prop} {p q : DivisionPolicy}
    (hjoin : ∀ symbol {left left' right right' : Node}, R left left' → R right right' →
      R (join p symbol left right) (join q symbol left' right'))
    (name : String) {arguments arguments' : List (List Term)} (log log' : Log)
    (h : List.Forall₂ (List.Forall₂ fun a b =>
      Slot.Matches R (Slot.ofTerm p a) (Slot.ofTerm q b)) arguments arguments') :
    ∃ result result', SameOutcome R result result' ∧
      (ofCalculation p name arguments log).1 = ofBuild result ∧
      (ofCalculation q name arguments' log').1 = ofBuild result' := by
  by_cases hlength : arguments.length = 1
  · obtain ⟨terms, rfl⟩ := List.length_eq_one_iff.mp hlength
    obtain ⟨terms', _, hterms, ⟨⟩, rfl⟩ := List.forall₂_cons_left_iff.mp h
    refine ⟨_, _, build_matches hjoin ?_, ofCalculation_fst p name terms log,
      ofCalculation_fst q name terms' log'⟩
    rw [List.forall₂_map_left_iff, List.forall₂_map_right_iff]
    exact hterms
  · have hlength' : arguments'.length ≠ 1 := h.length_eq ▸ hlength
    refine ⟨.error _, .error _, .error (.wrongArgumentCount arguments.length),
      ofCalculation_fst_of_length_ne_one p name hlength log, ?_⟩
    rw [ofCalculation_fst_of_length_ne_one q name hlength', h.length_eq]
    rfl

/-- A calculation depends on its operands as its slots do. -/
theorem matches_ofCalculation {p q : DivisionPolicy} (hpolicy : policies p q) (name : String)
    {arguments arguments' : List (List Term)} (log log' : Log)
    (h : List.Forall₂ (List.Forall₂ fun a b =>
      Slot.Matches (Matches literals policies) (Slot.ofTerm p a) (Slot.ofTerm q b))
      arguments arguments') :
    (ofCalculation p name arguments log).1.Matches literals policies
      (ofCalculation q name arguments' log').1 := by
  obtain ⟨result, result', hsame, hp, hq⟩ :=
    ofCalculation_sameOutcome (matches_join hpolicy) name log log' h
  rw [hp, hq]
  exact matches_ofBuild hsame

/-- Terms that match become trees that match. -/
theorem matches_leaf {p q : DivisionPolicy} (hpolicy : policies p q)
    (hzero : literals .zero .zero) {a b : Term} (h : a.Matches literals b) :
    (leaf p a).Matches literals policies (leaf q b) := by
  induction a generalizing b with
  | number quantity =>
    cases h with
    | number hquantity => exact .literal hquantity
  | identifier name =>
    cases h
    exact .literal hzero
  | operator symbol =>
    cases h
    exact .literal hzero
  | call name arguments ih =>
    cases h with
    | call _ harguments =>
      rw [leaf, ofTerm, leaf, ofTerm]
      rcases Builtin.ofName? name with _ | _ | _
      · exact .literal hzero
      · apply matches_ofCalculation hpolicy
        refine Term.forall₂_imp_of_mem (fun terms hterms term hterm other hother => ?_) harguments
        exact matches_ofTerm hother (ih terms hterms term hterm hother)
      · simp only [ofEnvironment]
        rw [Term.Matches.environmentName_eq harguments]
        exact .environment _

end Node
end LiveStyle
