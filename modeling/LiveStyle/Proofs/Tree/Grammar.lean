import LiveStyle.Proofs.Tree.Reading

/-! # Two levels of precedence

An alternating list is a sum of products: cut at every symbol other than `*` and `/`, its
segments are folded first and their trees afterwards, both from the left.  The tight pass
leaves exactly the folded segments on the stack, and the loose pass folds these.
-/
namespace LiveStyle

namespace Series
open Node

def product (policy : DivisionPolicy) (segment : Series Operand) : Node :=
  (segment.map fun operand => leaf policy operand.val).fold (join policy)

def sum (policy : DivisionPolicy) (segments : Series (Series Operand)) : Node :=
  (segments.map (product policy)).fold (join policy)

def slots (series : Series Node) : List Slot := series.entries Slot.operand Slot.operator

theorem map_ofTerm_followers (policy : DivisionPolicy) (rest : List (String × Operand)) :
    (followers Subtype.val Term.operator rest).map (Slot.ofTerm policy) =
      followers Slot.operand Slot.operator
        (rest.map fun next => (next.1, leaf policy next.2.val)) := by
  induction rest with
  | nil => rfl
  | cons next rest ih =>
    rw [followers_cons, List.map_cons, List.map_cons, ih,
      Slot.ofTerm_of_operand policy next.2.property]
    rfl

theorem map_ofTerm_terms (policy : DivisionPolicy) (series : Series Operand) :
    series.terms.map (Slot.ofTerm policy) =
      (series.map fun operand => leaf policy operand.val).slots := by
  rw [terms, entries, List.map_cons, map_ofTerm_followers,
    Slot.ofTerm_of_operand policy series.first.property]
  rfl

end Series

namespace Slot
open Node Series

/-- The series with each segment folded into one node. -/
def folded (policy : DivisionPolicy) (series : Series Node) : Series Node :=
  series.cut.map fun segment => segment.fold (join policy)

theorem folded_tight (policy : DivisionPolicy) {symbol : String}
    (h : symbolBindsTight symbol = true) (first node : Node) (rest : List (String × Node)) :
    folded policy ⟨first, (symbol, node) :: rest⟩ =
      folded policy ⟨join policy symbol first node, rest⟩ := by
  simp [folded, cut, cutRest_tight h, Series.map, Series.fold]

theorem slots_folded_loose (policy : DivisionPolicy) {symbol : String}
    (h : symbolBindsTight symbol = false) (first node : Node) (rest : List (String × Node)) :
    (folded policy ⟨first, (symbol, node) :: rest⟩).slots =
      operand first :: operator symbol :: (folded policy ⟨node, rest⟩).slots := by
  simp [folded, cut, cutRest_loose h, Series.map, Series.fold, slots, entries]

/-- The tight pass folds the segments: its stack holds them and the symbols between them. -/
theorem tightPass_followers (policy : DivisionPolicy) (first : Node)
    (rest : List (String × Node)) (below : List Slot) :
    tightPass policy (followers operand operator rest) (operand first :: below) =
      .ok ((folded policy ⟨first, rest⟩).slots.reverse ++ below) := by
  induction rest generalizing first below with
  | nil => rfl
  | cons next rest ih =>
    obtain ⟨symbol, node⟩ := next
    rw [followers_cons, tightPass_cons_ok (push_operand policy first below _)]
    cases h : symbolBindsTight symbol with
    | true =>
      rw [tightPass_cons_ok (push_join policy first node below h), ih, folded_tight policy h]
    | false =>
      rw [tightPass_cons_ok (push_loose policy _ _ h), ih, slots_folded_loose policy h]
      simp

theorem chain_followers (policy : DivisionPolicy) (tree : Node) (rest : List (String × Node)) :
    chain policy tree (followers operand operator rest) =
      .ok (fold (join policy) ⟨tree, rest⟩) := by
  induction rest generalizing tree with
  | nil => rfl
  | cons next rest ih =>
    rw [followers_cons, chain, ih]
    rfl

theorem foldLoose_slots (policy : DivisionPolicy) (series : Series Node) :
    foldLoose policy series.slots = .ok (series.fold (join policy)) :=
  chain_followers policy series.first series.rest

theorem build_slots (policy : DivisionPolicy) (series : Series Node) :
    build policy series.slots = .ok ((folded policy series).fold (join policy)) := by
  rw [build, slots, entries, tightPass_cons_ok (push_nil policy _), tightPass_followers]
  simp only [Except.bind, List.append_nil, List.reverse_reverse]
  exact foldLoose_slots policy _

/-- An alternating list always builds. -/
theorem build_terms (policy : DivisionPolicy) (series : Series Operand) :
    build policy (series.terms.map (ofTerm policy)) = .ok (series.cut.sum policy) := by
  rw [map_ofTerm_terms, build_slots, folded, cut_map, Series.map_map]
  rfl

end Slot

namespace Node
open Slot

/-- The calculation of an alternating list is the tree of its two-level grammar, and this tree
reads as the list. -/
theorem ofCalculation_terms (policy : DivisionPolicy) (name : String) (series : Series Operand)
    (log : Log) :
    series.cut.flatten = series ∧ series.cut.TwoLevel ∧
      (ofCalculation policy name [series.terms] log).1 = enclose (series.cut.sum policy) ∧
      (series.cut.sum policy).reading = series.terms.map (Slot.ofTerm policy) := by
  have hbuild := build_terms policy series
  refine ⟨series.flatten_cut, series.twoLevel_cut, ?_, ?_⟩
  · rw [ofCalculation_fst, hbuild]
    rfl
  · rw [reading_of_build hbuild, readings_map_ofTerm]

end Node
end LiveStyle
