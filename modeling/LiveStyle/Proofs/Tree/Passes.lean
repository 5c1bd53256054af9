import LiveStyle.Proofs.Term.Series
import LiveStyle.Tree.BuildLog

/-! # Building from slots alone

The log is written while a tree is built but never read, so the two passes are functions
of the slots of the terms.  One term placed on the stack is one step of the tight pass;
all that can happen to it is listed once, and the laws of builds start from that list.
-/
namespace LiveStyle

namespace Node

/-- What stands in a tree for an operand. -/
def leaf (policy : DivisionPolicy) (term : Term) : Node := (ofTerm policy term #[]).1

theorem ofTerm_fst (policy : DivisionPolicy) (term : Term) (log : Log) :
    (ofTerm policy term log).1 = leaf policy term := by
  rw [ofTerm_log]
  rfl

def ofBuild : Except BuildError Node → Node
  | .ok inner => enclose inner
  | .error error => fail error

theorem ofResult_fst (call : Term) (result : Except BuildError Node) (log : Log) :
    (ofResult call result log).1 = ofBuild result := by
  cases result <;> rfl

end Node

namespace Slot
open Node

def symbol? : Slot → Option String
  | operand _ => none
  | operator symbol => some symbol

def ofTerm (policy : DivisionPolicy) : Term → Slot
  | .operator symbol => operator symbol
  | term => operand (leaf policy term)

@[simp] theorem symbol?_ofTerm (policy : DivisionPolicy) (term : Term) :
    (ofTerm policy term).symbol? = term.symbol? := by
  cases term <;> rfl

theorem ofTerm_of_operand (policy : DivisionPolicy) {term : Term} (h : term.symbol? = none) :
    ofTerm policy term = operand (leaf policy term) := by
  cases term with
  | operator symbol => cases h
  | _ => rfl

theorem ofTerm_eq_operator {policy : DivisionPolicy} {term : Term} {symbol : String}
    (h : ofTerm policy term = .operator symbol) : term = .operator symbol := by
  apply Term.eq_operator
  rw [← symbol?_ofTerm policy term, h]
  rfl

theorem ofTerm_eq_operand {policy : DivisionPolicy} {term : Term} {node : Node}
    (h : ofTerm policy term = .operand node) : term.symbol? = none := by
  rw [← symbol?_ofTerm policy term, h]
  rfl

/-- One step of the tight pass. -/
def push (policy : DivisionPolicy) (stack : List Slot) (slot : Slot) :
    Except BuildError (List Slot) :=
  match gap stack with
  | .error error => .error error
  | .ok gap => gap.fill policy slot

section Push
variable (policy : DivisionPolicy) {symbol found : String} (left right : Node)
  (below : List Slot) (slot : Slot)

@[simp] theorem push_nil : push policy [] slot = .ok [slot] := rfl

@[simp] theorem push_operand :
    push policy (operand left :: below) slot = .ok (slot :: operand left :: below) := rfl

theorem push_loose (h : symbolBindsTight symbol = false) :
    push policy (operator symbol :: below) slot = .ok (slot :: operator symbol :: below) := by
  simp [push, gap, h, Gap.fill]

theorem push_join (h : symbolBindsTight symbol = true) :
    push policy (operator symbol :: operand left :: below) (operand right) =
      .ok (operand (join policy symbol left right) :: below) := by
  simp [push, gap, h, Gap.fill]

theorem push_missing (h : symbolBindsTight symbol = true) :
    push policy [operator symbol] slot = .error (.missingLeftOperand symbol) := by
  simp [push, gap, h]

theorem push_operator_below (h : symbolBindsTight symbol = true) :
    push policy (operator symbol :: operator found :: below) slot =
      .error (.expectedOperand found) := by
  simp [push, gap, h]

theorem push_operator_above (h : symbolBindsTight symbol = true) :
    push policy (operator symbol :: operand left :: below) (operator found) =
      .error (.expectedOperand found) := by
  simp [push, gap, h, Gap.fill]

end Push

/-- What a successful step can do: join across a tight operator, or go on top of a stack
that has none there. -/
theorem push_cases {policy : DivisionPolicy} {stack next : List Slot} {slot : Slot}
    (h : push policy stack slot = .ok next) :
    (∃ symbol left right below, symbolBindsTight symbol = true ∧
      stack = operator symbol :: operand left :: below ∧ slot = operand right ∧
      next = operand (join policy symbol left right) :: below) ∨
    ((∀ symbol ∈ stack.head?.bind symbol?, symbolBindsTight symbol = false) ∧
      next = slot :: stack) := by
  rcases stack with _ | ⟨left | symbol, below⟩
  · rw [push_nil] at h
    cases h
    exact .inr ⟨by simp, rfl⟩
  · rw [push_operand] at h
    cases h
    exact .inr ⟨by simp [symbol?], rfl⟩
  · by_cases ht : symbolBindsTight symbol = true
    · rcases below with _ | ⟨left | found, below⟩
      · rw [push_missing policy slot ht] at h
        cases h
      · cases slot with
        | operand right =>
          rw [push_join policy left right below ht] at h
          cases h
          exact .inl ⟨symbol, left, right, below, ht, rfl, rfl, rfl⟩
        | operator found =>
          rw [push_operator_above policy left below ht] at h
          cases h
      · rw [push_operator_below policy below slot ht] at h
        cases h
    · have hl : symbolBindsTight symbol = false := by simpa using ht
      rw [push_loose policy below slot hl] at h
      cases h
      exact .inr ⟨by simpa [symbol?] using hl, rfl⟩

def tightPass (policy : DivisionPolicy) :
    List Slot → List Slot → Except BuildError (List Slot)
  | [], stack => .ok stack
  | slot :: slots, stack =>
    match push policy stack slot with
    | .error error => .error error
    | .ok stack => tightPass policy slots stack

theorem tightPass_cons_ok {policy : DivisionPolicy} {slot : Slot} {slots stack next : List Slot}
    (h : push policy stack slot = .ok next) :
    tightPass policy (slot :: slots) stack = tightPass policy slots next := by
  rw [tightPass, h]

theorem tightPass_cons_error {policy : DivisionPolicy} {slot : Slot} {slots stack : List Slot}
    {error : BuildError} (h : push policy stack slot = .error error) :
    tightPass policy (slot :: slots) stack = .error error := by
  rw [tightPass, h]

/-- What holds at the end of a pass that succeeds, and before a step if it does after it, holds
at its beginning. -/
theorem tightPass_induction {policy : DivisionPolicy} {done : List Slot}
    {motive : List Slot → List Slot → Prop} (nil : motive [] done)
    (cons : ∀ {slot slots stack next}, push policy stack slot = .ok next → motive slots next →
      motive (slot :: slots) stack)
    {slots stack : List Slot} (h : tightPass policy slots stack = .ok done) :
    motive slots stack := by
  induction slots generalizing stack with
  | nil =>
    cases h
    exact nil
  | cons slot slots ih =>
    cases hpush : push policy stack slot with
    | error error =>
      rw [tightPass_cons_error hpush] at h
      cases h
    | ok next =>
      rw [tightPass_cons_ok hpush] at h
      exact cons hpush (ih h)

def build (policy : DivisionPolicy) (slots : List Slot) : Except BuildError Node :=
  (tightPass policy slots []).bind fun stack => foldLoose policy stack.reverse

theorem build_eq_ok {policy : DivisionPolicy} {slots : List Slot} {tree : Node}
    (h : build policy slots = .ok tree) :
    ∃ stack, tightPass policy slots [] = .ok stack ∧
      foldLoose policy stack.reverse = .ok tree := by
  unfold build at h
  cases hpass : tightPass policy slots [] with
  | error error =>
    rw [hpass] at h
    cases h
  | ok stack =>
    rw [hpass] at h
    exact ⟨stack, rfl, h⟩

end Slot

namespace Node
open Slot

theorem foldTight_fst (policy : DivisionPolicy) (terms : List Term) (stack : List Slot)
    (log : Log) :
    (foldTight policy terms stack log).1 =
      tightPass policy (terms.map (Slot.ofTerm policy)) stack := by
  induction terms generalizing stack log with
  | nil => rfl
  | cons term terms ih =>
    rw [List.map_cons, tightPass, push]
    cases hgap : Slot.gap stack with
    | error error => cases term <;> simp [foldTight, hgap]
    | ok gap =>
      -- The log that the new slot leaves behind differs with the term; the rest ignores it.
      have hfill (slot : Slot) (log : Log) :
          (match gap.fill policy slot with
            | .error error => (Except.error error, log)
            | .ok stack => foldTight policy terms stack log).1 =
          (match gap.fill policy slot with
            | .error error => .error error
            | .ok stack => tightPass policy (terms.map (Slot.ofTerm policy)) stack) := by
        cases gap.fill policy slot with
        | error error => rfl
        | ok stack => exact ih stack log
      cases term with
      | operator symbol =>
        simp only [foldTight, hgap]
        exact hfill (.operator symbol) log
      | _ =>
        simp only [foldTight, hgap, Slot.ofTerm]
        rw [← ofTerm_fst policy _ log]
        exact hfill _ _

theorem ofCalculation_fst (policy : DivisionPolicy) (name : String) (terms : List Term)
    (log : Log) :
    (ofCalculation policy name [terms] log).1 =
      ofBuild (build policy (terms.map (Slot.ofTerm policy))) := by
  simp only [ofCalculation]
  rw [ofResult_fst, foldTight_fst]
  rfl

/-- Without exactly one argument nothing is built. -/
theorem ofCalculation_fst_of_length_ne_one (policy : DivisionPolicy) (name : String)
    {arguments : List (List Term)} (h : arguments.length ≠ 1) (log : Log) :
    (ofCalculation policy name arguments log).1 =
      fail (.wrongArgumentCount arguments.length) := by
  rcases arguments with _ | ⟨terms, _ | ⟨more, rest⟩⟩
  · rfl
  · exact absurd rfl h
  · rfl

/-- The name of a call shows only in the log. -/
theorem ofCalculation_eq_leaf (policy : DivisionPolicy) (name : String)
    (arguments : List (List Term)) (log : Log) :
    (ofCalculation policy name arguments log).1 = leaf policy (.call "calc" arguments) := by
  change _ = (ofCalculation policy "calc" arguments #[]).1
  by_cases h : arguments.length = 1
  · obtain ⟨terms, rfl⟩ := List.length_eq_one_iff.mp h
    rw [ofCalculation_fst, ofCalculation_fst]
  · rw [ofCalculation_fst_of_length_ne_one policy name h,
      ofCalculation_fst_of_length_ne_one policy "calc" h]

end Node
end LiveStyle
