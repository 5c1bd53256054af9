import LiveStyle.Proofs.Tree.BuildReports

/-! # The stack of the tight pass

As long as the tight pass does not fail, its stack stands for the terms that have been placed:
read from the bottom, each operator stands for itself and each operand for a product that was
joined from the left out of single terms.  A tight operator leaves the stack with the next term,
so that it can only lie on top; the loose pass meets one at the end of the stack or not at all.
-/
namespace LiveStyle

namespace Node
open Slot

theorem foldTight_append (policy : DivisionPolicy) (placed rest : List Term) (stack : List Slot)
    (log : Log) :
    foldTight policy (placed ++ rest) stack log =
      match foldTight policy placed stack log with
      | (.error error, log) => (.error error, log)
      | (.ok next, log) => foldTight policy rest next log := by
  induction placed generalizing stack log with
  | nil => simp [foldTight]
  | cons term placed ih =>
    rw [List.cons_append, foldTight_cons, foldTight_cons]
    cases push policy stack (Slot.ofTerm policy term) with
    | error error => rfl
    | ok next => exact ih next _

end Node

namespace Slot
open Node Series

variable {policy : DivisionPolicy} {stack next : List Slot} {terms placed : List Term}
  {term : Term} {node : Node}

/-- A node that was joined from the left, by tight operators with a single term on their right,
and the terms in it. -/
inductive Product (policy : DivisionPolicy) : Node → List Term → Prop
  | single {term : Term} (hterm : term.symbol? = none) : Product policy (leaf policy term) [term]
  | join {left : Node} {terms : List Term} {symbol : String} {term : Term}
      (hleft : Product policy left terms) (htight : symbolBindsTight symbol = true)
      (hterm : term.symbol? = none) :
      Product policy (join policy symbol left (leaf policy term))
        (terms ++ [.operator symbol, term])

/-- The terms that a stack stands for, those of its top at the end. -/
inductive StandsFor (policy : DivisionPolicy) : List Slot → List Term → Prop
  | empty : StandsFor policy [] []
  | operator {below : List Slot} {placed : List Term} (symbol : String)
      (hbelow : StandsFor policy below placed) :
      StandsFor policy (operator symbol :: below) (placed ++ [.operator symbol])
  | operand {below : List Slot} {placed terms : List Term} {node : Node}
      (hbelow : StandsFor policy below placed) (hnode : Product policy node terms) :
      StandsFor policy (operand node :: below) (placed ++ terms)

def LooseBelowTop (stack : List Slot) : Prop :=
  ∀ symbol, operator symbol ∈ stack.tail → symbolBindsTight symbol = false

/-- What holds of the stack of a pass that has placed these terms. -/
structure Holds (policy : DivisionPolicy) (stack : List Slot) (placed : List Term) : Prop where
  standsFor : StandsFor policy stack placed
  looseBelowTop : LooseBelowTop stack

/-! ### What the stack shows of the terms -/

theorem Product.reading (h : Product policy node terms) :
    node.reading = terms.map (ofTerm policy) := by
  induction h with
  | single hterm => rw [reading_leaf, List.map_singleton, ofTerm_of_operand policy hterm]
  | join _ _ hterm ih =>
    rw [reading_join, ih, reading_leaf, List.map_append, ← ofTerm_of_operand policy hterm]
    rfl

theorem StandsFor.readings_eq (h : StandsFor policy stack placed) :
    readings stack.reverse = placed.map (ofTerm policy) := by
  induction h with
  | empty => rfl
  | operator symbol _ ih =>
    rw [List.reverse_cons, readings_append, ih, List.map_append]
    rfl
  | operand _ hnode ih =>
    rw [List.reverse_cons, readings_append, ih, List.map_append, ← hnode.reading, readings_cons,
      readings_nil, List.append_nil, reading]

theorem Product.getLast? (h : Product policy node terms) :
    terms.getLast?.map Term.symbol? = some none := by
  cases h with
  | single hterm => simp [hterm]
  | join _ _ hterm => simp [hterm]

/-- The top of the stack is an operator when the last term is one, and the same one. -/
theorem StandsFor.head?_eq (h : StandsFor policy stack placed) :
    stack.head?.map symbol? = placed.getLast?.map Term.symbol? := by
  cases h with
  | empty => rfl
  | operator symbol _ => simp [symbol?]
  | operand _ hnode =>
    obtain ⟨last, hlast, hterm⟩ := Option.map_eq_some_iff.mp hnode.getLast?
    rw [List.getLast?_append, hlast, Option.some_or, Option.map_some, hterm]
    rfl

/-- From its bottom, a stack that is loose below its top has a tight operator only at its end. -/
theorem LooseBelowTop.eq_nil (h : LooseBelowTop stack) {front back : List Slot} {symbol : String}
    (hstack : stack.reverse = front ++ operator symbol :: back)
    (htight : symbolBindsTight symbol = true) : back = [] := by
  rcases List.eq_nil_or_concat back with rfl | ⟨init, top, rfl⟩
  · rfl
  · have htail : operator symbol ∈ stack.tail := by
      rw [← List.reverse_reverse stack, hstack]
      simp
    rw [h symbol htail] at htight
    cases htight

/-! ### Steps and passes -/

/-- A term that is placed joins the product below a tight operator, or stands for itself. -/
theorem StandsFor.push (h : StandsFor policy stack placed)
    (hpush : push policy stack (ofTerm policy term) = .ok next) :
    StandsFor policy next (placed ++ [term]) := by
  rcases push_cases hpush with
    ⟨symbol, left, right, below, htight, rfl, hslot, rfl⟩ | ⟨-, rfl⟩
  · have hterm := ofTerm_eq_operand hslot
    rw [ofTerm_of_operand policy hterm] at hslot
    cases hslot
    cases h with
    | operator _ h =>
      cases h with
      | operand hbelow hleft =>
        rw [List.append_assoc, List.append_assoc]
        exact .operand hbelow (.join hleft htight hterm)
  · cases hterm : term.symbol? with
    | none =>
      rw [ofTerm_of_operand policy hterm]
      exact .operand h (.single hterm)
    | some symbol =>
      rw [Term.eq_operator hterm]
      exact .operator symbol h

/-- A tight operator on top leaves the stack before another slot comes to lie on it. -/
theorem LooseBelowTop.push (h : LooseBelowTop stack) {slot : Slot}
    (hpush : push policy stack slot = .ok next) : LooseBelowTop next := by
  rcases push_cases hpush with ⟨symbol, left, right, below, -, rfl, -, rfl⟩ | ⟨htop, rfl⟩
  · intro found hfound
    exact h found (List.mem_cons_of_mem _ hfound)
  · intro found hfound
    rcases stack with _ | ⟨top, below⟩
    · cases hfound
    · rcases List.mem_cons.mp hfound with rfl | hfound
      · exact htop found rfl
      · exact h found hfound

theorem Holds.push (h : Holds policy stack placed)
    (hpush : push policy stack (ofTerm policy term) = .ok next) :
    Holds policy next (placed ++ [term]) :=
  ⟨h.standsFor.push hpush, h.looseBelowTop.push hpush⟩

theorem holds_start (policy : DivisionPolicy) : Holds policy [] [] := ⟨.empty, nofun⟩

theorem Holds.tightPass (h : Holds policy stack placed) {rest : List Term} {left : List Slot}
    (hpass : tightPass policy (rest.map (ofTerm policy)) stack = .ok left) :
    Holds policy left (placed ++ rest) := by
  induction rest generalizing stack placed with
  | nil =>
    cases hpass
    simpa using h
  | cons term rest ih =>
    rw [List.map_cons] at hpass
    cases hpush : Slot.push policy stack (ofTerm policy term) with
    | error error =>
      rw [tightPass_cons_error hpush] at hpass
      cases hpass
    | ok next =>
      rw [tightPass_cons_ok hpush] at hpass
      have hrest := ih (h.push hpush) hpass
      rwa [List.append_assoc] at hrest

/-- The tight pass leaves an alternating stack exactly when the list of terms alternates. -/
theorem exists_slots_iff (hpass : tightPass policy (terms.map (ofTerm policy)) [] = .ok stack) :
    (∃ series : Series Node, series.slots = stack.reverse) ↔
      ∃ series : Series Operand, series.terms = terms := by
  constructor
  · rintro ⟨series, hslots⟩
    have hbuild : build policy (terms.map (ofTerm policy)) = .ok (series.fold (join policy)) := by
      rw [build, hpass, ← foldLoose_slots, hslots]
      rfl
    exact exists_series_of_build hbuild
  · rintro ⟨series, rfl⟩
    rw [map_ofTerm_terms, slots, entries, tightPass_cons_ok (push_nil policy _),
      tightPass_followers, List.append_nil] at hpass
    cases hpass
    exact ⟨_, (List.reverse_reverse _).symm⟩

/-! ### The pass over a list of terms -/

/-- At every point that the tight pass comes to, its stack gives back the terms placed so far: each
operator stands for itself, each operand for a product of single terms joined from the left, and
the top is an operator when the last term is that operator.  Only the top can be a tight operator;
so the stack alternates exactly when the terms do, and the loose pass can only find a tight
operator at the end. -/
theorem stack_stands_for_placed (policy : DivisionPolicy) (placed rest : List Term)
    (stack : List Slot) (log after : Log)
    (h : foldTight policy placed [] log = (.ok stack, after)) :
    foldTight policy (placed ++ rest) [] log = foldTight policy rest stack after ∧
      readings stack.reverse = placed.map (ofTerm policy) ∧
      StandsFor policy stack placed ∧
      stack.head?.map symbol? = placed.getLast?.map Term.symbol? ∧
      (∀ symbol, operator symbol ∈ stack.tail → symbolBindsTight symbol = false) ∧
      ((∃ series : Series Node, series.slots = stack.reverse) ↔
        ∃ series : Series Operand, series.terms = placed) ∧
      ∀ front symbol back, stack.reverse = front ++ operator symbol :: back →
        symbolBindsTight symbol = true → back = [] := by
  have hpass : tightPass policy (placed.map (ofTerm policy)) [] = .ok stack := by
    rw [← foldTight_fst policy placed [] log, h]
  have hholds : Holds policy stack placed := (holds_start policy).tightPass hpass
  refine ⟨?_, hholds.standsFor.readings_eq, hholds.standsFor, hholds.standsFor.head?_eq,
    hholds.looseBelowTop, exists_slots_iff hpass, fun front symbol back hstack htight => ?_⟩
  · rw [foldTight_append, h]
  · exact hholds.looseBelowTop.eq_nil hstack htight

/-- A product that waits for its third factor: the last term is the tight operator on top. -/
theorem stack_stands_for_placed_product :
    let placed : List Term := [.identifier "a", .operator "*", .identifier "b", .operator "/"]
    let rest : List Term := [.identifier "c"]
    let stack : List Slot := [operator "/", operand (join .zero "*" Node.zero Node.zero)]
    let after : Log :=
      #[.notEvaluatable (.identifier "a"), .notEvaluatable (.identifier "b")]
    foldTight .zero placed [] #[] = (.ok stack, after) ∧
      foldTight .zero (placed ++ rest) [] #[] = foldTight .zero rest stack after ∧
      readings stack.reverse = placed.map (ofTerm .zero) ∧ StandsFor .zero stack placed ∧
      stack.head?.map symbol? = placed.getLast?.map Term.symbol? ∧
      symbolBindsTight "/" = true ∧
      ∀ front back, stack.reverse = front ++ operator "/" :: back → back = [] := by
  intro placed rest stack after
  have hplaced : foldTight .zero placed [] #[] = (.ok stack, after) := rfl
  have htight : symbolBindsTight "/" = true := by decide
  obtain ⟨hwhole, hreadings, hstands, htop, -, -, hend⟩ :=
    stack_stands_for_placed .zero placed rest stack #[] after hplaced
  exact ⟨hplaced, hwhole, hreadings, hstands, htop, htight,
    fun front back hstack => hend front "/" back hstack htight⟩

end Slot
end LiveStyle
