import LiveStyle.Proofs.Tree.Diagnosis
import LiveStyle.Proofs.Tree.Induction

/-! # What a build reports

The reports of a build are read off the terms.  A calculation reports its operands from left to
right, but only those that the tight pass comes to: it stops at the first violation, while the
loose pass begins when every operand has been built.  So a list that only the loose pass refuses is
reported as fully as one that builds.
-/
namespace LiveStyle

namespace Term

/-- How many terms the tight pass places: those before the first violation, or all. -/
def placed (terms : List Term) : Nat := (List.range terms.length).findIdx (violates terms)

/-- A call whose first argument begins with the scroll progress is recognized. -/
def environmentReports : List (List Term) → List Event
  | (identifier "window-scroll-y" :: _) :: _ => []
  | (identifier name :: _) :: _ => [.unknownVariable (some name)]
  | _ => [.unknownVariable none]

/-- A build opens its span, reports what it comes to, and gives the reason if there is no tree. -/
def calculationReports (call : Term) (error : Option BuildError) (operands : List Event) :
    List Event :=
  .buildStarted call :: (operands ++ (error.map fun error => .noTree error call).toList)

mutual

/-- What is reported while a term is built, in this order. -/
def buildReports : Term → List Event
  | number _ => []
  | identifier name => [.notEvaluatable (identifier name)]
  | operator symbol => [.notEvaluatable (operator symbol)]
  | call name arguments =>
    match Builtin.ofName? name with
    | some .calculation =>
      calculationReports (call name arguments) (argumentsError? arguments)
        (argumentReports arguments)
    | some .environment => environmentReports arguments
    | none => [.unknownFunction name]

/-- The reports of the operands that are built; with more or fewer arguments than one, none is. -/
def argumentReports : List (List Term) → List Event
  | [terms] => ((operandReports terms).take (placed terms)).flatten
  | _ => []

/-- The reports of each term of an argument; an operator there is not a term to evaluate. -/
def operandReports : List Term → List (List Event)
  | [] => []
  | operator _ :: terms => [] :: operandReports terms
  | term :: terms => buildReports term :: operandReports terms

end

theorem operandReports_cons (term : Term) (terms : List Term) :
    operandReports (term :: terms) =
      (if term.symbol?.isSome then [] else term.buildReports) :: operandReports terms := by
  cases term <;> simp [operandReports, symbol?]

end Term

namespace Slot
open Term

theorem fill_operand (policy : DivisionPolicy) (gap : Gap) (node : Node) :
    ∃ next, gap.fill policy (operand node) = .ok next := by
  cases gap <;> exact ⟨_, rfl⟩

theorem readings_start (policy : DivisionPolicy) :
    readings ([] : List Slot).reverse = ([] : List Term).map (ofTerm policy) := rfl

/-- The tight pass over the first terms succeeds until the first violation is among them. -/
theorem tightPass_take_ok_iff {policy : DivisionPolicy} {stack : List Slot} {done : List Term}
    (h : readings stack.reverse = done.map (ofTerm policy)) {rest : List Term} {n : Nat}
    (hn : n ≤ rest.length) :
    (∃ left, tightPass policy ((rest.take n).map (ofTerm policy)) stack = .ok left) ↔
      n ≤ (List.range' done.length rest.length).findIdx (violates (done ++ rest)) := by
  induction rest generalizing stack done n with
  | nil =>
    obtain rfl : n = 0 := by simpa using hn
    simp [tightPass]
  | cons term rest ih =>
    cases n with
    | zero => simp [tightPass]
    | succ n =>
      rw [List.length_cons, List.range'_succ, List.findIdx_cons, List.take_succ_cons, List.map_cons]
      rcases push_violates h term rest with ⟨hfine, next, hpush⟩ | ⟨hviolates, error, hpush, -⟩
      · have hafter := ih (readings_push_ofTerm h hpush) (Nat.le_of_succ_le_succ hn)
        rw [List.append_assoc, List.singleton_append, List.length_append] at hafter
        rw [hfine, tightPass_cons_ok hpush, hafter]
        simp
      · rw [hviolates, tightPass_cons_error hpush]
        simp

end Slot

namespace Node
open Slot Term

def placeLog (policy : DivisionPolicy) (term : Term) : Log :=
  if term.symbol?.isSome then #[] else (ofTerm policy term #[]).2

/-- One step of the tight pass, with its log: a step that fails reports nothing. -/
theorem foldTight_cons (policy : DivisionPolicy) (term : Term) (terms : List Term)
    (stack : List Slot) (log : Log) :
    foldTight policy (term :: terms) stack log =
      match push policy stack (Slot.ofTerm policy term) with
      | .error error => (.error error, log)
      | .ok next => foldTight policy terms next (log ++ placeLog policy term) := by
  rw [push]
  cases hgap : gap stack with
  | error error => cases term <;> simp [foldTight, hgap]
  | ok gap =>
    cases term with
    | operator symbol =>
      simp only [foldTight, hgap, Slot.ofTerm]
      cases gap.fill policy (.operator symbol) <;> simp [placeLog]
    | _ =>
      -- An operand fills every gap, so that the step does not fail after it has been built.
      simp only [foldTight, hgap, Slot.ofTerm]
      rw [ofTerm_log]
      obtain ⟨next, hfill⟩ := fill_operand policy gap (leaf policy _)
      rw [← leaf, hfill]
      rfl

/-- The tight pass places as many terms as stand before the first violation. -/
theorem foldTight_take_ok_iff (policy : DivisionPolicy) (terms : List Term) (n : Nat) (log : Log) :
    (∃ stack, (foldTight policy (terms.take n) [] log).1 = .ok stack) ↔
      min n terms.length ≤ placed terms := by
  have hpass := tightPass_take_ok_iff (readings_start policy) (Nat.min_le_right n terms.length)
  rw [List.length_nil, ← List.range_eq_range', List.nil_append, ← List.take_eq_take_min] at hpass
  simp only [foldTight_fst]
  exact hpass

/-- The tight pass reports the terms up to the first violation. -/
theorem log_foldTight {policy : DivisionPolicy} {stack : List Slot} {done : List Term}
    (h : readings stack.reverse = done.map (Slot.ofTerm policy)) {rest : List Term}
    (hrest : ∀ term ∈ rest, (ofTerm policy term #[]).2 = term.buildReports.toArray) (log : Log) :
    (foldTight policy rest stack log).2 =
      log ++ ((operandReports rest).take
        ((List.range' done.length rest.length).findIdx
          (violates (done ++ rest)))).flatten.toArray := by
  induction rest generalizing stack done log with
  | nil => simp [foldTight, operandReports]
  | cons term rest ih =>
    obtain ⟨hterm, hrest⟩ := List.forall_mem_cons.mp hrest
    rw [foldTight_cons, List.length_cons, List.range'_succ, List.findIdx_cons]
    rcases push_violates h term rest with ⟨hfine, next, hpush⟩ | ⟨hviolates, error, hpush, -⟩
    · have hlog : placeLog policy term =
          (if term.symbol?.isSome then [] else term.buildReports).toArray := by
        rw [placeLog, hterm]
        split <;> rfl
      have hafter := ih (readings_push_ofTerm h hpush) hrest (log ++ placeLog policy term)
      rw [List.append_assoc, List.singleton_append, List.length_append] at hafter
      simp only [hpush, hfine, cond_false]
      rw [hafter, operandReports_cons, List.take_succ_cons, List.flatten_cons, hlog]
      simp
    · simp [hpush, hviolates]

theorem buildError?_eq_argumentsError? (policy : DivisionPolicy) (name : String)
    (arguments : List (List Term)) (log : Log) :
    (ofCalculation policy name arguments log).1.buildError? = argumentsError? arguments := by
  by_cases h : arguments.length = 1
  · obtain ⟨terms, rfl⟩ := List.length_eq_one_iff.mp h
    rw [ofCalculation_fst, buildError?_ofBuild, error?_build, argumentsError?]
  · rw [ofCalculation_fst_of_length_ne_one policy name h, argumentsError?_of_length_ne_one h]
    rfl

theorem log_ofResult (call : Term) (result : Except BuildError Node) (log : Log) :
    (ofResult call result log).2 =
      log ++ ((ofResult call result log).1.buildError?.map fun error =>
        Event.noTree error call).toList.toArray := by
  cases result <;> simp [ofResult, buildError?, enclose, fail]

/-- A calculation reports its span, its operands as far as its pass comes, and its error. -/
theorem log_ofCalculation (policy : DivisionPolicy) (name : String)
    {arguments : List (List Term)}
    (h : ∀ terms ∈ arguments, ∀ term ∈ terms,
      (ofTerm policy term #[]).2 = term.buildReports.toArray) (log : Log) :
    (ofCalculation policy name arguments log).2 =
      log ++ (calculationReports (.call name arguments)
        (ofCalculation policy name arguments log).1.buildError?
        (argumentReports arguments)).toArray := by
  by_cases hlength : arguments.length = 1
  · obtain ⟨terms, rfl⟩ := List.length_eq_one_iff.mp hlength
    have hpass := log_foldTight (readings_start policy) (h terms (by simp))
      (log.push (.buildStarted (.call name [terms])))
    rw [List.length_nil, ← List.range_eq_range', List.nil_append] at hpass
    simp only [ofCalculation]
    rw [log_ofResult, hpass]
    apply Array.toList_inj.mp
    simp [calculationReports, argumentReports, placed]
  · have hmany : ∀ terms, arguments ≠ [terms] := by
      rintro terms rfl
      exact hlength rfl
    rw [ofCalculation, log_ofResult, argumentReports]
    · apply Array.toList_inj.mp
      simp [calculationReports]
    · exact hmany
    · exact hmany

theorem log_ofEnvironment (arguments : List (List Term)) (log : Log) :
    (ofEnvironment arguments log).2 = log ++ (environmentReports arguments).toArray := by
  unfold environmentReports
  split
  · simp [ofEnvironment, environmentName, namedVariable, Variable.ofName?]
  next name _ _ h =>
    have hname : Variable.ofName? name = none := by
      unfold Variable.ofName?
      split
      · exact absurd rfl h
      · rfl
    simp [ofEnvironment, environmentName, namedVariable, hname]
  next h =>
    have hname : environmentName arguments = none := by
      unfold environmentName
      split
      · exact (h _ _ _ rfl).elim
      · rfl
    simp [ofEnvironment, hname, namedVariable]

theorem log_ofTerm (policy : DivisionPolicy) (term : Term) (log : Log) :
    (ofTerm policy term log).2 = log ++ term.buildReports.toArray := by
  induction term generalizing log with
  | number quantity => simp [ofTerm, buildReports]
  | identifier name => simp [ofTerm, buildReports]
  | operator symbol => simp [ofTerm, buildReports]
  | call name arguments ih =>
    rw [ofTerm, buildReports]
    rcases Builtin.ofName? name with _ | _ | _
    · simp
    · have hoperands : ∀ terms ∈ arguments, ∀ term ∈ terms,
          (ofTerm policy term #[]).2 = term.buildReports.toArray := by
        intro terms hterms term hterm
        rw [ih terms hterms term hterm, Array.empty_append]
      rw [← buildError?_eq_argumentsError? policy name arguments log]
      exact log_ofCalculation policy name hoperands log
    · exact log_ofEnvironment arguments log

/-- The tight pass stops before `b`; the loose pass would have found the missing operator. -/
example :
    let call := Term.call "calc"
      [[.identifier "a", .operator "*", .operator "/", .identifier "b"]]
    call.buildReports =
      [.buildStarted call, .notEvaluatable (.identifier "a"),
        .noTree (.expectedOperand "/") call] :=
  rfl

end Node
end LiveStyle
