import LiveStyle.Proofs.Evaluation.Constancy
import LiveStyle.Proofs.Evaluation.Grouping
import LiveStyle.Proofs.Spherical.Interchange
import Mathlib.Logic.Relation

/-! # Full parentheses

The pass over a list says where redundant groups can go: each time it combines two values it could
find them in a group of their own.  Group by group, a list so comes to its fully parenthesised form,
in which no calculation holds more than one operator, and is worth the same all the while.
-/
namespace LiveStyle

namespace Term
open Running

def pair (symbol : String) (left right : Term) : Term :=
  call "calc" [[left, operator symbol, right]]

mutual

/-- The term with a group for every operator in every list that is built. -/
def parenthesised : Term → Term
  | call name arguments =>
    match Builtin.ofName? name with
    | some .calculation => parenthesisedArguments arguments
    | _ => call name arguments
  | term => term

def parenthesisedArguments : List (List Term) → Term
  | [terms] => if alternates terms then parenthesisedTerms terms else call "calc" [terms]
  | arguments => call "calc" arguments

def parenthesisedTerms : List Term → Term
  | [] => call "calc" [[]]
  | [operand] => call "calc" [[parenthesised operand]]
  | first :: rest => parenthesisedRest ⟨none, parenthesised first⟩ rest

/-- The pass over a list, with groups in the place of values. -/
def parenthesisedRest (now : Running Term) : List Term → Term
  | operator symbol :: operand :: rest =>
    parenthesisedRest (now.take pair symbol (parenthesised operand)) rest
  | _ => now.close pair

end

/-- No calculation in this operand that is built holds more than one operator. -/
inductive Binary : Term → Prop
  | atom {term : Term} : term.symbol? = none →
      (∀ series : Series Operand, term ≠ call "calc" [series.terms]) → Binary term
  | single {operand : Term} : Binary operand → Binary (call "calc" [[operand]])
  | pair (symbol : String) {left right : Term} :
      Binary left → Binary right → Binary (pair symbol left right)

theorem Binary.symbol?_eq {term : Term} (h : term.Binary) : term.symbol? = none := by
  cases h with
  | atom hterm => exact hterm
  | single => rfl
  | pair => rfl

abbrev Steps : Term → Term → Prop := Relation.ReflTransGen Regrouped

theorem Regrouped.around {a b : Term} (h : a.Regrouped b) (frame : Frame) :
    (call "calc" (frame.arguments a)).Regrouped (call "calc" (frame.arguments b)) := by
  cases h with
  | within frames hgrouping => exact .within (frame :: frames) hgrouping

theorem Steps.around {a b : Term} (h : Steps a b) (before after : List Term) :
    Steps (call "calc" [before ++ a :: after]) (call "calc" [before ++ b :: after]) := by
  induction h with
  | refl => exact .refl
  | tail _ hstep ih => exact ih.tail (hstep.around ⟨[], before, after, []⟩)

/-- A redundant group of two operands is a pair. -/
theorem Steps.pair {front : Option (Series Operand × String)} {left right : Operand}
    {symbol : String} {rest : List (String × Operand)}
    (h : Series.Redundant front ⟨left, [(symbol, right)]⟩ rest) :
    Steps (call "calc" [(Series.ledBy front ⟨left, (symbol, right) :: rest⟩).terms])
      (call "calc" [(Series.ledBy front ⟨Series.group ⟨left, [(symbol, right)]⟩, rest⟩).terms]) :=
  .single (.within [] (.intro h))

end Term

namespace Running
open Term

/-- The terms that are kept, as they stand in front of the others. -/
def listed (now : Running Term) (rest : List Term) : List Term :=
  match now.total with
  | none => now.segment :: rest
  | some (total, symbol) => total :: operator symbol :: now.segment :: rest

theorem listed_append (now : Running Term) (rest more : List Term) :
    now.listed (rest ++ more) = now.listed rest ++ more := by
  rcases now with ⟨_ | kept, segment⟩ <;> rfl

/-- Finished operands are kept, and the symbol that waits does not bind tight. -/
structure Waiting (now : Running Term) : Prop where
  segment : now.segment.Binary
  total : ∀ kept ∈ now.total, kept.1.Binary ∧ symbolBindsTight kept.2 = false

section Waiting
variable {now : Running Term} (hnow : now.Waiting) (symbol : String) {operand : Term}
  (hoperand : operand.Binary)
include hnow

theorem Waiting.close : (now.close pair).Binary := by
  rcases now with ⟨_ | kept, segment⟩
  · exact hnow.segment
  · exact .pair kept.2 (hnow.total kept rfl).1 hnow.segment

include hoperand

theorem Waiting.take : (now.take pair symbol operand).Waiting := by
  by_cases hsymbol : symbolBindsTight symbol = true
  · rw [take_tight hsymbol]
    exact ⟨.pair symbol hnow.segment hoperand, hnow.total⟩
  · rw [Bool.not_eq_true] at hsymbol
    rw [take_loose hsymbol]
    refine ⟨hoperand, ?_⟩
    rintro kept ⟨⟩
    exact ⟨hnow.close, hsymbol⟩

/-- Where the pass combines two values, a group of the two is redundant. -/
theorem Waiting.steps_take (rest : List (String × Operand)) :
    let others := Series.followers Subtype.val operator rest
    Steps (call "calc" [now.listed (operator symbol :: operand :: others)])
      (call "calc" [(now.take pair symbol operand).listed others]) := by
  obtain ⟨hsegment, htotal⟩ := hnow
  let member (term : Term) (h : term.Binary) : Operand := ⟨term, h.symbol?_eq⟩
  rcases now with ⟨_ | ⟨total, waiting⟩, segment⟩
  · by_cases hsymbol : symbolBindsTight symbol = true
    · have h : Series.Redundant none
          ⟨member segment hsegment, [(symbol, member operand hoperand)]⟩ rest :=
        .segment rest (by simpa using symbolBindsTight_eq_true_iff.mp hsymbol) nofun
      rw [take_tight hsymbol]
      exact .pair h
    · rw [take_loose (by simpa using hsymbol)]
      exact .refl
  · obtain ⟨htotal, hwaiting⟩ := htotal _ rfl
    by_cases hsymbol : symbolBindsTight symbol = true
    · have h : Series.Redundant (some (⟨member total htotal, []⟩, waiting))
          ⟨member segment hsegment, [(symbol, member operand hoperand)]⟩ rest :=
        .segment rest (by simpa using symbolBindsTight_eq_true_iff.mp hsymbol)
          (by simpa using symbolBindsTight_eq_false_iff.mp hwaiting)
      rw [take_tight hsymbol]
      exact .pair h
    · rw [Bool.not_eq_true] at hsymbol
      have h : Series.Redundant none
          ⟨member total htotal, [(waiting, member segment hsegment)]⟩
          ((symbol, member operand hoperand) :: rest) :=
        .beginning rfl (by simpa using symbolBindsTight_eq_false_iff.mp hsymbol)
      rw [take_loose hsymbol]
      exact .pair h

theorem Waiting.steps_close :
    Steps (call "calc" [now.listed [operator symbol, operand]])
      ((now.take pair symbol operand).close pair) := by
  have hsteps := hnow.steps_take symbol hoperand []
  by_cases hsymbol : symbolBindsTight symbol = true
  · rw [take_tight hsymbol] at hsteps ⊢
    rcases now with ⟨_ | kept, segment⟩
    · -- The list holds two operands and no more, and is a pair as it stands.
      exact .refl
    · exact hsteps
  · rw [Bool.not_eq_true] at hsymbol
    rw [take_loose hsymbol] at hsteps ⊢
    exact hsteps

end Waiting
end Running

namespace Term
open Running Series

/-- Some redundant groups later, no calculation that is built holds more than one operator. -/
structure HasForm (term form : Term) : Prop where
  steps : Steps term form
  binary : form.Binary

theorem parenthesisedRest_cons (now : Running Term) (symbol : String) (operand : Term)
    (rest : List Term) :
    parenthesisedRest now (operator symbol :: operand :: rest) =
      parenthesisedRest (now.take pair symbol (parenthesised operand)) rest := by
  rw [parenthesisedRest]

theorem steps_next {next : String × Operand} {form : Term} (h : Steps next.2.val form)
    (now : Running Term) (rest : List (String × Operand)) :
    Steps (call "calc" [now.listed (followers Subtype.val operator (next :: rest))])
      (call "calc" [now.listed
        (operator next.1 :: form :: followers Subtype.val operator rest)]) := by
  have hsteps := h.around (now.listed [operator next.1]) (followers Subtype.val operator rest)
  rw [← listed_append, ← listed_append] at hsteps
  exact hsteps

/-- The pass leads from a list to its form. -/
theorem hasForm_rest {next : String × Operand} {rest : List (String × Operand)}
    (hrest : ∀ each ∈ next :: rest, each.2.val.HasForm each.2.val.parenthesised)
    {now : Running Term} (hnow : now.Waiting) :
    (call "calc" [now.listed (followers Subtype.val operator (next :: rest))]).HasForm
      (parenthesisedRest now (followers Subtype.val operator (next :: rest))) := by
  induction rest generalizing next now with
  | nil =>
    obtain ⟨hnext, -⟩ := List.forall_mem_cons.mp hrest
    rw [followers_cons, parenthesisedRest_cons, followers_nil, parenthesisedRest]
    · constructor
      · exact (steps_next hnext.steps now []).trans (hnow.steps_close next.1 hnext.binary)
      · exact (hnow.take next.1 hnext.binary).close
    · exact nofun
  | cons after rest ih =>
    obtain ⟨hnext, hrest⟩ := List.forall_mem_cons.mp hrest
    have hform := ih hrest (hnow.take next.1 hnext.binary)
    rw [followers_cons, parenthesisedRest_cons]
    constructor
    · have htake := hnow.steps_take next.1 hnext.binary (after :: rest)
      exact (steps_next hnext.steps now (after :: rest)).trans (htake.trans hform.steps)
    · exact hform.binary

theorem hasForm_atom {term : Term} (h : term.symbol? = none)
    (hseries : ∀ series : Series Operand, term ≠ call "calc" [series.terms]) :
    term.HasForm term :=
  ⟨.refl, .atom h hseries⟩

theorem hasForm_terms {series : Series Operand}
    (h : ∀ operand ∈ series.members, operand.val.HasForm operand.val.parenthesised) :
    (call "calc" [series.terms]).HasForm (parenthesisedTerms series.terms) := by
  obtain ⟨first, rest⟩ := series
  obtain ⟨hfirst, hrest⟩ := List.forall_mem_cons.mp h
  have hsteps := hfirst.steps.around [] (followers Subtype.val operator rest)
  cases rest with
  | nil => exact ⟨hsteps, .single hfirst.binary⟩
  | cons next rest =>
    have hnow : Waiting ⟨none, first.val.parenthesised⟩ := ⟨hfirst.binary, nofun⟩
    have hform := hasForm_rest (List.forall_mem_map.mp hrest) hnow
    exact ⟨hsteps.trans hform.steps, hform.binary⟩

theorem parenthesised_list (series : Series Operand) :
    parenthesised (call "calc" [series.terms]) = parenthesisedTerms series.terms := by
  have halternates : alternates series.terms = true :=
    (alternates_iff series.terms).mpr ⟨series, rfl⟩
  rw [parenthesised]
  change parenthesisedArguments [series.terms] = _
  rw [parenthesisedArguments, if_pos halternates]

theorem parenthesised_of_not_list {name : String} {arguments : List (List Term)}
    (h : ¬ (name = "calc" ∧ ∃ series : Series Operand, arguments = [series.terms])) :
    parenthesised (call name arguments) = call name arguments := by
  rw [parenthesised]
  cases hname : Builtin.ofName? name with
  | none => rfl
  | some f =>
    cases f with
    | environment => rfl
    | calculation =>
      obtain rfl := Builtin.ofName?_eq_some_iff.mp hname
      change parenthesisedArguments arguments = call "calc" arguments
      rcases arguments with _ | ⟨terms, _ | ⟨more, rest⟩⟩
      · rfl
      · rw [parenthesisedArguments, if_neg]
        intro halternates
        obtain ⟨series, rfl⟩ := (alternates_iff terms).mp halternates
        exact h ⟨rfl, series, rfl⟩
      · rfl

theorem hasForm_parenthesised (term : Term) (h : term.symbol? = none) :
    term.HasForm term.parenthesised := by
  induction term with
  | number quantity => exact hasForm_atom h nofun
  | identifier name => exact hasForm_atom h nofun
  | operator symbol => cases h
  | call name arguments ih =>
    -- Whatever is not a calculation over an alternating list stays as it is.
    by_cases hlist : name = "calc" ∧ ∃ series : Series Operand, arguments = [series.terms]
    · obtain ⟨rfl, series, rfl⟩ := hlist
      rw [parenthesised_list]
      apply hasForm_terms
      intro operand hmem
      exact ih series.terms (by simp) operand.val (Series.val_mem_terms hmem) operand.property
    · rw [parenthesised_of_not_list hlist]
      apply hasForm_atom h
      rintro series ⟨⟩
      exact hlist ⟨rfl, series, rfl⟩

theorem parenthesisedRest_followers (rest : List (String × Operand)) (now : Running Term) :
    parenthesisedRest now (followers Subtype.val operator rest) =
      (now.takeAll pair (rest.map fun next => (next.1, next.2.val.parenthesised))).close pair := by
  induction rest generalizing now with
  | nil =>
    rw [followers_nil, parenthesisedRest]
    · rfl
    · exact nofun
  | cons next rest ih =>
    rw [followers_cons, parenthesisedRest_cons, ih]
    rfl

/-- The form of a list with operators: the members of each segment are paired from left to right,
and then the segments are. -/
theorem parenthesised_group {series : Series Operand} (h : series.rest ≠ []) :
    series.group.val.parenthesised =
      ((series.map fun operand => operand.val.parenthesised).cut.map (fold pair)).fold pair := by
  obtain ⟨first, rest⟩ := series
  cases rest with
  | nil => exact absurd rfl h
  | cons next rest =>
    rw [← close_takeAll_first]
    exact (parenthesised_list _).trans (parenthesisedRest_followers (next :: rest) _)

theorem Steps.interchangeable (policy : DivisionPolicy) {a b : Term} (h : Steps a b) :
    (Node.leaf policy a).Interchangeable (Node.leaf policy b) := by
  induction h with
  | refl => exact .refl _
  | tail _ hstep ih => exact ih.trans (Node.interchangeable_of_regrouped policy hstep)

end Term

/-- A redundant group changes nothing.  The calculations over the list with and without it are built
and answer alike, and so does whatever they are written in, at any depth.  Repeated, groups lead
every operand to a form in which no calculation that is built holds more than one operator; the form
of a list pairs the members of each segment from left to right, and then the segments. -/
theorem redundant_grouping_immaterial :
    (∀ (policy : DivisionPolicy) (name : String) (old new : Series Operand) (log log' : Log),
      Series.Grouping old new →
        let m := (Node.ofCalculation policy name [old.terms] log).1
        let n := (Node.ofCalculation policy name [new.terms] log').1
        m.buildError? = none ∧ n.buildError? = none ∧ m.AnswerAlike n) ∧
    (∀ (policy : DivisionPolicy) (a b : Term), a.Regrouped b → a.Exchangeable policy b) ∧
    (∀ term : Term, term.symbol? = none →
      Term.Steps term term.parenthesised ∧ term.parenthesised.Binary ∧
        ∀ policy, term.Exchangeable policy term.parenthesised) ∧
    ∀ series : Series Operand, series.rest ≠ [] →
      series.group.val.parenthesised =
        ((series.map fun operand => operand.val.parenthesised).cut.map
          (Series.fold Term.pair)).fold Term.pair := by
  refine ⟨?_, ?_, ?_, fun series => Term.parenthesised_group⟩
  · intro policy name old new log log' h m n
    have herror (series : Series Operand) :
        (Node.leaf policy series.group.val).buildError? = none := by
      rw [Node.leaf_group]
      rfl
    simp only [m, n, Node.ofCalculation_eq_leaf]
    refine ⟨herror old, herror new, ?_⟩
    exact (Node.interchangeable_of_grouping policy h).answerAlike (Node.coherent_leaf policy _)
      (Node.coherent_leaf policy _)
  · intro policy a b h
    exact Term.exchangeable_of_interchangeable (Node.interchangeable_of_regrouped policy h)
  · intro term h
    have hform := Term.hasForm_parenthesised term h
    refine ⟨hform.steps, hform.binary, fun policy => ?_⟩
    exact Term.exchangeable_of_interchangeable (hform.steps.interchangeable policy)

/-- A product in the middle of a sum is a group of its own, and as good without one. -/
theorem redundant_grouping_immaterial_product :
    let metre : Operand := ⟨.number ⟨1, some .metre⟩, rfl⟩
    let two : Operand := ⟨.number (.unitless 2), rfl⟩
    let progress : Operand := ⟨.call "env" [[.identifier "window-scroll-y"]], rfl⟩
    let half : Operand := ⟨.number ⟨50, some .centimetre⟩, rfl⟩
    let old : Series Operand := ⟨metre, [("+", two), ("*", progress), ("-", half)]⟩
    let new : Series Operand :=
      ⟨metre, [("+", Series.group ⟨two, [("*", progress)]⟩), ("-", half)]⟩
    let product := Term.pair "*" two.val progress.val
    let form := Term.pair "-" (Term.pair "+" metre.val product) half.val
    Series.Grouping old new ∧
      (Node.ofCalculation .zero "calc" [old.terms] #[]).1.AnswerAlike
        (Node.ofCalculation .zero "calc" [new.terms] #[]).1 ∧
      old.group.val.Exchangeable .zero new.group.val ∧
      Term.Steps old.group.val form ∧ form.Binary ∧ old.group.val.Exchangeable .zero form := by
  intro metre two progress half old new product form
  obtain ⟨hlists, hregrouped, hforms, hform⟩ := redundant_grouping_immaterial
  have hredundant : Series.Redundant (some (⟨metre, []⟩, "+")) ⟨two, [("*", progress)]⟩
      [("-", half)] := .segment _ (by decide) (by decide)
  have hgrouping : Series.Grouping old new := .intro hredundant
  have hold : old.group.val.parenthesised = form := hform old (by simp [old])
  obtain ⟨hsteps, hbinary, hexchangeable⟩ := hforms old.group.val rfl
  rw [hold] at hsteps hbinary hexchangeable
  refine ⟨hgrouping, ?_, ?_, hsteps, hbinary, hexchangeable .zero⟩
  · exact (hlists .zero "calc" old new #[] #[] hgrouping).2.2
  · exact hregrouped .zero _ _ (.within [] hgrouping)

end LiveStyle
