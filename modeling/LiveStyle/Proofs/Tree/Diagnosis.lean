import LiveStyle.Proofs.Tree.Grammar

/-! # The blame for a malformed list

The tight pass fails at the first term that stands after a tight operator without both
operands, whatever stands before it; only lists without such a term reach the loose pass,
which fails where operands and operators first stop alternating.  Both places are read off
the list of terms, because the stack reads as the terms placed so far.
-/
namespace LiveStyle

namespace Term

def symbolAt? (terms : List Term) (i : Nat) : Option String := terms[i]?.bind symbol?

/-- A `*` or `/` stands just before position `i` and lacks an operand on one of its sides. -/
def violates (terms : List Term) (i : Nat) : Bool :=
  i ≠ 0 && (symbolAt? terms (i - 1)).any (fun symbol => symbol = "*" || symbol = "/") &&
    (i = 1 || (symbolAt? terms (i - 2)).isSome || (symbolAt? terms i).isSome)

/-- The left side of the operator is blamed before its right side. -/
def violation (terms : List Term) (i : Nat) : Option BuildError :=
  if i = 1 then (symbolAt? terms 0).map .missingLeftOperand
  else ((symbolAt? terms (i - 2)).or (symbolAt? terms i)).map .expectedOperand

/-- Operands belong at even positions and operators at odd ones. -/
def misplaced (terms : List Term) (i : Nat) : Bool :=
  (symbolAt? terms i).isSome != (i % 2 == 1)

/-- What is wrong with a list in which nothing violates a tight operator. -/
def misplacement (terms : List Term) : Option Nat → Option BuildError
  | some i =>
    if i % 2 = 0 then (symbolAt? terms i).map .expectedOperand else some .expectedOperator
  | none =>
    if terms.length % 2 = 0 then (symbolAt? terms (terms.length - 1)).map .danglingOperator
    else none

/-- What is wrong with a list of terms as the argument of a calculation. -/
def listError? (terms : List Term) : Option BuildError :=
  match (List.range terms.length).find? (violates terms) with
  | some i => violation terms i
  | none =>
    if terms = [] then some .empty
    else misplacement terms ((List.range terms.length).find? (misplaced terms))

/-- What is wrong with the arguments of a calculation, of which there is to be one. -/
def argumentsError? : List (List Term) → Option BuildError
  | [terms] => listError? terms
  | arguments => some (.wrongArgumentCount arguments.length)

theorem argumentsError?_of_length_ne_one {arguments : List (List Term)}
    (h : arguments.length ≠ 1) :
    argumentsError? arguments = some (.wrongArgumentCount arguments.length) := by
  rcases arguments with _ | ⟨terms, _ | ⟨more, rest⟩⟩
  · rfl
  · exact absurd rfl h
  · rfl

@[simp] theorem symbolAt?_append (done rest : List Term) (i : Nat) :
    symbolAt? (done ++ rest) (done.length + i) = symbolAt? rest i := by
  rw [symbolAt?, List.getElem?_append_right (Nat.le_add_right _ _), Nat.add_sub_cancel_left]
  rfl

@[simp] theorem symbolAt?_zero (term : Term) (rest : List Term) :
    symbolAt? (term :: rest) 0 = term.symbol? := rfl

@[simp] theorem symbolAt?_succ (term : Term) (rest : List Term) (i : Nat) :
    symbolAt? (term :: rest) (i + 1) = symbolAt? rest i := rfl

@[simp] theorem symbolAt?_length (done rest : List Term) :
    symbolAt? (done ++ rest) done.length = symbolAt? rest 0 :=
  symbolAt?_append done rest 0

end Term

namespace Slot
open Node Term

def error? {α : Type} : Except BuildError α → Option BuildError
  | .ok _ => none
  | .error error => some error

/-- The terms placed so far end as the stack does. -/
theorem done_of_top {policy : DivisionPolicy} {slot : Slot} {below : List Slot}
    {done : List Term} (h : readings (slot :: below).reverse = done.map (ofTerm policy)) :
    ∃ init last, done = init ++ [last] ∧ last.symbol? = slot.symbol? ∧
      (slot.symbol?.isSome = true → readings below.reverse = init.map (ofTerm policy)) := by
  rw [List.reverse_cons, readings_append, readings_cons, readings_nil, List.append_nil] at h
  cases slot with
  | operand node =>
    obtain ⟨init, last, hreading⟩ := reading_eq_concat node
    rw [reading, hreading, ← List.append_assoc] at h
    obtain ⟨terms, tail, rfl, -, htail⟩ := List.map_eq_append_iff.mp h.symm
    obtain ⟨term, rfl, hterm⟩ := List.map_eq_singleton_iff.mp htail
    exact ⟨terms, term, rfl, ofTerm_eq_operand hterm, by simp [symbol?]⟩
  | operator symbol =>
    obtain ⟨terms, tail, rfl, hterms, htail⟩ := List.map_eq_append_iff.mp h.symm
    obtain ⟨term, rfl, hterm⟩ := List.map_eq_singleton_iff.mp htail
    rw [ofTerm_eq_operator hterm]
    exact ⟨terms, _, rfl, rfl, fun _ => hterms.symm⟩

/-- A step succeeds unless the new term stands in violation of a tight operator. -/
theorem push_violates {policy : DivisionPolicy} {stack : List Slot} {done : List Term}
    (h : readings stack.reverse = done.map (ofTerm policy)) (term : Term) (rest : List Term) :
    (violates (done ++ term :: rest) done.length = false ∧
      ∃ next, push policy stack (ofTerm policy term) = .ok next) ∨
    violates (done ++ term :: rest) done.length = true ∧
      ∃ error, push policy stack (ofTerm policy term) = .error error ∧
        violation (done ++ term :: rest) done.length = some error := by
  rcases stack with _ | ⟨top, below⟩
  · have hdone : done = [] := by simpa using h.symm
    subst hdone
    exact .inl ⟨rfl, _, push_nil policy _⟩
  obtain ⟨init, last, rfl, hlast, hinit⟩ := done_of_top h
  cases top with
  | operand left =>
    have hlast : last.symbol? = none := hlast
    exact .inl ⟨by simp [violates, hlast], _, push_operand policy left below _⟩
  | operator symbol =>
    have hlast : last.symbol? = some symbol := hlast
    cases htight : symbolBindsTight symbol with
    | false =>
      have hloose := symbolBindsTight_eq_false_iff.mp htight
      exact .inl ⟨by simp [violates, hlast, hloose], _, push_loose policy below _ htight⟩
    | true =>
      have hsymbol := symbolBindsTight_eq_true_iff.mp htight
      rcases below with _ | ⟨next, below⟩
      · have hnil : init = [] := by simpa using (hinit rfl).symm
        subst hnil
        exact .inr ⟨by simp [violates, hlast, hsymbol], _, push_missing policy _ htight,
          by simp [violation, hlast]⟩
      obtain ⟨init, second, rfl, hsecond, -⟩ := done_of_top (hinit rfl)
      cases next with
      | operator found =>
        have hsecond : second.symbol? = some found := hsecond
        exact .inr ⟨by simp [violates, hlast, hsymbol, hsecond], _,
          push_operator_below policy below _ htight, by simp [violation, hsecond]⟩
      | operand left =>
        have hsecond : second.symbol? = none := hsecond
        cases hterm : ofTerm policy term with
        | operand right =>
          have hterm := ofTerm_eq_operand hterm
          exact .inl ⟨by simp [violates, hlast, hsecond, hterm], _,
            push_join policy left right below htight⟩
        | operator found =>
          rw [ofTerm_eq_operator hterm]
          exact .inr ⟨by simp [violates, hlast, hsymbol, hsecond], _,
            push_operator_above policy left below htight, by simp [violation, hsecond]⟩

/-- A term placed on a stack that reads as others is read after them. -/
theorem readings_push_ofTerm {policy : DivisionPolicy} {stack next : List Slot}
    {done : List Term} {term : Term} (h : readings stack.reverse = done.map (ofTerm policy))
    (hpush : push policy stack (ofTerm policy term) = .ok next) :
    readings next.reverse = (done ++ [term]).map (ofTerm policy) := by
  rw [readings_push hpush, h, reading_ofTerm, List.map_append]
  rfl

/-- The tight pass fails at the first violation, with its blame, and nowhere else. -/
theorem error?_tightPass {policy : DivisionPolicy} {stack : List Slot} {done : List Term}
    (h : readings stack.reverse = done.map (ofTerm policy)) (rest : List Term) :
    match (List.range' done.length rest.length).find? (violates (done ++ rest)) with
    | some i => ∃ error, tightPass policy (rest.map (ofTerm policy)) stack = .error error ∧
        violation (done ++ rest) i = some error
    | none => ∃ left, tightPass policy (rest.map (ofTerm policy)) stack = .ok left := by
  -- Positions are those of the whole list, so the terms already placed are kept in `done`.
  induction rest generalizing stack done with
  | nil => exact ⟨stack, rfl⟩
  | cons term rest ih =>
    rw [List.length_cons, List.range'_succ, List.find?_cons, List.map_cons]
    rcases push_violates h term rest with ⟨hfine, next, hpush⟩ | ⟨hviolates, error, hpush, hblame⟩
    · have hrest := ih (readings_push_ofTerm h hpush)
      rw [List.append_assoc, List.singleton_append, List.length_append] at hrest
      rw [hfine, tightPass_cons_ok hpush]
      exact hrest
    · rw [hviolates, tightPass_cons_error hpush]
      exact ⟨error, rfl, hblame⟩

/-- What the loose pass finds wrong after an operand. -/
def chainError? : List Slot → Option BuildError
  | [] => none
  | operand _ :: _ => some .expectedOperator
  | [operator symbol] => some (.danglingOperator symbol)
  | operator _ :: operator found :: _ => some (.expectedOperand found)
  | operator _ :: operand _ :: rest => chainError? rest

theorem error?_chain (policy : DivisionPolicy) (tree : Node) (slots : List Slot) :
    error? (chain policy tree slots) = chainError? slots := by
  induction tree, slots using chain.induct policy with
  | case5 tree symbol right rest ih => exact ih
  | _ => rfl

/-- A tree passes for a single operand. -/
theorem chainError?_reading (symbol : String) (node : Node) (rest : List Slot) :
    chainError? (operator symbol :: (node.reading ++ rest)) = chainError? rest := by
  induction node generalizing symbol rest with
  | operator inner left right policy memo ihl ihr =>
    rw [Node.reading, List.append_assoc, ihl, List.cons_append, ihr]
  | _ => rfl

theorem chainError?_readings (slots : List Slot) :
    chainError? (readings slots) = chainError? slots := by
  induction slots using chainError?.induct with
  | case1 => rfl
  | case2 node rest =>
    obtain ⟨first, tail, h⟩ := reading_eq_cons node
    rw [readings_cons, reading, h]
    rfl
  | case3 symbol => rfl
  | case4 symbol found rest => rfl
  | case5 symbol node rest ih =>
    rw [readings_cons, readings_cons, reading, reading, List.singleton_append,
      chainError?_reading, ih]
    rfl

theorem error?_foldLoose (policy : DivisionPolicy) (first : Node) (rest : List Slot) :
    error? (foldLoose policy (operand first :: rest)) = chainError? rest :=
  error?_chain policy first rest

theorem error?_foldLoose_readings (policy : DivisionPolicy) (slots : List Slot) :
    error? (foldLoose policy (readings slots)) = error? (foldLoose policy slots) := by
  rcases slots with _ | ⟨node | symbol, rest⟩
  · rfl
  · obtain ⟨first, tail, h⟩ := reading_eq_cons node
    calc error? (foldLoose policy (readings (operand node :: rest)))
        = chainError? (operator "" :: (node.reading ++ readings rest)) := by
          rw [readings_cons, reading, h, List.cons_append, error?_foldLoose]
          rfl
      _ = chainError? rest := by rw [chainError?_reading, chainError?_readings]
      _ = error? (foldLoose policy (operand node :: rest)) := by rw [error?_foldLoose]
  · rfl

/-- After an operand the loose pass blames the first misplaced term. -/
theorem chainError?_map (policy : DivisionPolicy) : ∀ rest done : List Term,
    done.length % 2 = 1 →
      chainError? (rest.map (ofTerm policy)) =
        misplacement (done ++ rest)
          ((List.range' done.length rest.length).find? (misplaced (done ++ rest)))
  | [], done, hodd => by simp [chainError?, misplacement, hodd]
  | [term], done, hodd => by
    cases hterm : term.symbol? with
    | none =>
      simp [misplaced, hodd, hterm, ofTerm_of_operand policy hterm, chainError?, misplacement]
    | some symbol =>
      rw [eq_operator hterm]
      have heven : (done.length + 1) % 2 = 0 := by omega
      simp [misplaced, hodd, ofTerm, chainError?, misplacement, heven]
  | term :: next :: rest, done, hodd => by
    cases hterm : term.symbol? with
    | none =>
      simp [misplaced, hodd, hterm, ofTerm_of_operand policy hterm, chainError?, misplacement,
        List.range'_succ]
    | some symbol =>
      have heven : (done.length + 1) % 2 = 0 := by omega
      have hplaced : misplaced (done ++ term :: next :: rest) done.length = false := by
        simp [misplaced, hodd, hterm]
      rw [List.length_cons, List.range'_succ, List.find?_cons, hplaced, eq_operator hterm]
      cases hnext : next.symbol? with
      | some found =>
        rw [eq_operator hnext]
        simp [misplaced, heven, ofTerm, chainError?, misplacement, List.range'_succ]
      | none =>
        have hplaced : misplaced (done ++ .operator symbol :: next :: rest) (done.length + 1) =
            false := by
          simp [misplaced, heven, hnext]
        have hrest := chainError?_map policy rest (done ++ [.operator symbol, next])
          (by simp [Nat.add_mod_right, hodd])
        rw [List.append_assoc, List.length_append] at hrest
        rw [List.length_cons, List.range'_succ, List.find?_cons, hplaced, List.map_cons,
          List.map_cons, ofTerm_of_operand policy hnext]
        exact hrest

theorem error?_foldLoose_map (policy : DivisionPolicy) (terms : List Term) :
    error? (foldLoose policy (terms.map (ofTerm policy))) =
      if terms = [] then some .empty
      else misplacement terms ((List.range terms.length).find? (misplaced terms)) := by
  rcases terms with _ | ⟨term, terms⟩
  · rfl
  rw [if_neg (List.cons_ne_nil term terms), List.range_eq_range', List.length_cons,
    List.range'_succ, List.find?_cons, List.map_cons]
  cases hterm : term.symbol? with
  | some symbol =>
    have hmisplaced : misplaced (term :: terms) 0 = true := by simp [misplaced, hterm]
    rw [hmisplaced, eq_operator hterm]
    rfl
  | none =>
    have hplaced : misplaced (term :: terms) 0 = false := by simp [misplaced, hterm]
    rw [hplaced, ofTerm_of_operand policy hterm, error?_foldLoose]
    exact chainError?_map policy terms [term] rfl

/-- Both passes blame the term that the list itself gives away. -/
theorem error?_build (policy : DivisionPolicy) (terms : List Term) :
    error? (build policy (terms.map (ofTerm policy))) = listError? terms := by
  have hnil : readings ([] : List Slot).reverse = ([] : List Term).map (ofTerm policy) := rfl
  have htight := error?_tightPass hnil terms
  rw [List.length_nil, ← List.range_eq_range', List.nil_append] at htight
  unfold listError? build
  cases hfind : (List.range terms.length).find? (violates terms) with
  | some i =>
    rw [hfind] at htight
    obtain ⟨error, hpass, hblame⟩ := htight
    rw [hpass]
    exact hblame.symm
  | none =>
    rw [hfind] at htight
    obtain ⟨stack, hpass⟩ := htight
    have hreadings : readings stack.reverse = terms.map (ofTerm policy) := by
      rw [readings_tightPass hpass, readings_map_ofTerm]
      rfl
    rw [hpass, ← error?_foldLoose_map policy terms, ← hreadings, error?_foldLoose_readings]
    rfl

/-- The operator in front is the first fault, but the tight pass does not look at it. -/
example : Term.listError? [.operator "+", .identifier "a", .operator "*", .operator "/"] =
    some (.expectedOperand "/") := by decide

/-- Whatever reads as a list of terms was joined from an alternating one. -/
theorem exists_series_of_reading {policy : DivisionPolicy} {node : Node} {terms : List Term}
    (h : node.reading = terms.map (ofTerm policy)) :
    ∃ series : Series Operand, series.terms = terms := by
  induction node generalizing terms with
  | operator symbol left right _ memo ihl ihr =>
    rw [Node.reading] at h
    obtain ⟨before, after, rfl, hbefore, hafter⟩ := List.map_eq_append_iff.mp h.symm
    obtain ⟨term, after, rfl, hterm, hafter⟩ := List.map_eq_cons_iff.mp hafter
    obtain ⟨left, rfl⟩ := ihl hbefore.symm
    obtain ⟨right, rfl⟩ := ihr hafter.symm
    rw [ofTerm_eq_operator hterm]
    exact ⟨left.append symbol right, left.terms_append symbol right⟩
  | _ =>
    obtain ⟨term, rfl, hterm⟩ := List.map_eq_singleton_iff.mp h.symm
    exact ⟨⟨⟨term, ofTerm_eq_operand hterm⟩, []⟩, rfl⟩

/-- Only alternating lists are built: folding hides no gap. -/
theorem exists_series_of_build {policy : DivisionPolicy} {terms : List Term} {tree : Node}
    (h : build policy (terms.map (ofTerm policy)) = .ok tree) :
    ∃ series : Series Operand, series.terms = terms :=
  exists_series_of_reading (by rw [reading_of_build h, readings_map_ofTerm])

end Slot

namespace Node
open Slot

theorem buildError?_ofBuild (result : Except BuildError Node) :
    (ofBuild result).buildError? = error? result := by
  cases result <;> rfl

theorem isSome_inner_ofBuild (result : Except BuildError Node) :
    ((ofBuild result).child? .inner).isSome = true ↔ ∃ tree, result = .ok tree := by
  cases result with
  | error error => simp [ofBuild, fail, child?]
  | ok tree => simp [ofBuild, enclose, child?]

/-- The build error of a call follows from its terms, and there is none exactly when the single
argument alternates. -/
theorem buildError?_ofCalculation (policy : DivisionPolicy) (name : String)
    (arguments : List (List Term)) (log : Log) :
    (ofCalculation policy name arguments log).1.buildError? = Term.argumentsError? arguments ∧
      (((ofCalculation policy name arguments log).1.child? .inner).isSome = true ↔
        ∃ series : Series Operand, arguments = [series.terms]) := by
  by_cases h : arguments.length = 1
  · obtain ⟨terms, rfl⟩ := List.length_eq_one_iff.mp h
    rw [ofCalculation_fst, buildError?_ofBuild, error?_build, isSome_inner_ofBuild]
    refine ⟨rfl, ?_, ?_⟩
    · rintro ⟨tree, hbuild⟩
      obtain ⟨series, rfl⟩ := exists_series_of_build hbuild
      exact ⟨series, rfl⟩
    · rintro ⟨series, hseries⟩
      cases hseries
      exact ⟨_, build_terms policy series⟩
  · rw [ofCalculation_fst_of_length_ne_one policy name h, Term.argumentsError?_of_length_ne_one h]
    refine ⟨rfl, by simp [fail, child?], ?_⟩
    rintro ⟨series, rfl⟩
    exact absurd rfl h

end Node
end LiveStyle
