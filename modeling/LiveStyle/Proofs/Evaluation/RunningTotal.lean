import LiveStyle.Proofs.Evaluation.Runs
import LiveStyle.Proofs.Tree.Diagnosis

/-! # Evaluation without a tree

One pass over the terms, from left to right, keeps a total of the segments closed so far
and the value of the running segment, and takes each operand as it comes.  The calculation
built from the terms evaluates to the result of this pass, and reads the source as it does.
-/
namespace LiveStyle

/-- What one pass keeps: the total so far with the symbol that waits for the next segment, and
the running segment. -/
structure Running (α : Type) where
  total : Option (α × String)
  segment : α

namespace Running

variable {α : Type} (combine : String → α → α → α)

/-- Close the segment; the first one is the total as it is. -/
def close (now : Running α) : α :=
  match now.total with
  | none => now.segment
  | some (total, symbol) => combine symbol total now.segment

def take (symbol : String) (operand : α) (now : Running α) : Running α :=
  if symbol = "*" ∨ symbol = "/" then { now with segment := combine symbol now.segment operand }
  else ⟨some (now.close combine, symbol), operand⟩

def takeAll (rest : List (String × α)) (now : Running α) : Running α :=
  rest.foldl (fun now next => now.take combine next.1 next.2) now

variable {combine} in
theorem take_tight {symbol : String} (h : symbolBindsTight symbol = true) (operand : α)
    (now : Running α) :
    now.take combine symbol operand =
      ⟨now.total, combine symbol now.segment operand⟩ :=
  if_pos (symbolBindsTight_eq_true_iff.mp h)

variable {combine} in
theorem take_loose {symbol : String} (h : symbolBindsTight symbol = false) (operand : α)
    (now : Running α) :
    now.take combine symbol operand = ⟨some (now.close combine, symbol), operand⟩ :=
  if_neg (not_or.mpr (symbolBindsTight_eq_false_iff.mp h))

theorem takeAll_cons (next : String × α) (rest : List (String × α)) (now : Running α) :
    now.takeAll combine (next :: rest) =
      (now.take combine next.1 next.2).takeAll combine rest := rfl

/-- The rest of the running segment is folded and closed, and the segments after it are folded
onto that. -/
theorem close_takeAll (rest : List (String × α)) (now : Running α) :
    (now.takeAll combine rest).close combine =
      Series.fold combine
        ⟨close combine ⟨now.total, Series.fold combine ⟨now.segment, (Series.cutRest rest).1⟩⟩,
          (Series.cutRest rest).2.map fun next => (next.1, next.2.fold combine)⟩ := by
  induction rest generalizing now with
  | nil => rfl
  | cons next rest ih =>
    obtain ⟨symbol, member⟩ := next
    rw [takeAll_cons, ih]
    cases h : symbolBindsTight symbol with
    | true =>
      rw [take_tight h, Series.cutRest_tight h]
      rfl
    | false =>
      rw [take_loose h, Series.cutRest_loose h]
      rfl

/-- One pass does what folding the segments and then their values does. -/
theorem close_takeAll_first (series : Series α) :
    (takeAll combine series.rest ⟨none, series.first⟩).close combine =
      (series.cut.map fun segment => segment.fold combine).fold combine :=
  close_takeAll combine series.rest ⟨none, series.first⟩

example :
    let combine := fun symbol left right => "(" ++ left ++ symbol ++ right ++ ")"
    (takeAll combine [("+", "b"), ("*", "c"), ("%", "d")] ⟨none, "a"⟩).close combine =
      "((a+(b*c))%d)" := by decide

end Running

namespace Running
open Node

variable {σ : Type} [ScrollSource σ] (policy : DivisionPolicy)

def live (now : Running Node) (source : σ) : Running Quantity × σ :=
  match now.total with
  | none =>
    let s := now.segment.live source
    (⟨none, s.1⟩, s.2)
  | some (total, symbol) =>
    let t := total.live source
    let s := now.segment.live t.2
    (⟨some (t.1, symbol), s.1⟩, s.2)

theorem live_close (now : Running Node) (source : σ) :
    (now.close (join policy)).live source =
      ((now.live source).1.close (Quantity.combineOrZero policy), (now.live source).2) := by
  rcases now with ⟨_ | ⟨total, symbol⟩, segment⟩ <;> rfl

/-- To take a node is to take its value, read after all that is kept. -/
theorem live_take (symbol : String) (operand : Node) (now : Running Node) (source : σ) :
    (now.take (join policy) symbol operand).live source =
      let kept := now.live source
      let o := operand.live kept.2
      (kept.1.take (Quantity.combineOrZero policy) symbol o.1, o.2) := by
  cases h : symbolBindsTight symbol with
  | true =>
    rw [take_tight h]
    simp only [take_tight h]
    rcases now with ⟨_ | ⟨total, waiting⟩, segment⟩ <;> rfl
  | false =>
    rw [take_loose h]
    simp only [take_loose h]
    rw [live]
    simp only [live_close]

end Running

namespace Term

variable {σ : Type} [ScrollSource σ] (policy : DivisionPolicy)

mutual

/-- The value of a term as an operand, found without building anything. -/
def tally : Term → σ → Quantity × σ
  | number quantity, source => (quantity, source)
  | call name arguments, source =>
    match Builtin.ofName? name with
    | some .calculation => tallyArguments arguments source
    | some .environment => Node.snapshot (Node.environmentName arguments) source
    | none => (.zero, source)
  | _, source => (.zero, source)

/-- A calculation of anything but one alternating list is zero. -/
def tallyArguments : List (List Term) → σ → Quantity × σ
  | [terms], source => if alternates terms then tallyTerms terms source else (.zero, source)
  | _, source => (.zero, source)

def tallyTerms : List Term → σ → Quantity × σ
  | [], source => (.zero, source)
  | first :: rest, source =>
    let f := tally first source
    tallyRest ⟨none, f.1⟩ rest f.2

def tallyRest (now : Running Quantity) : List Term → σ → Quantity × σ
  | operator symbol :: operand :: rest, source =>
    let o := tally operand source
    tallyRest (now.take (Quantity.combineOrZero policy) symbol o.1) rest o.2
  | _, source => (now.close (Quantity.combineOrZero policy), source)

end

theorem tallyRest_cons (now : Running Quantity) (symbol : String) (operand : Term)
    (rest : List Term) (source : σ) :
    tallyRest policy now (operator symbol :: operand :: rest) source =
      let o := tally policy operand source
      tallyRest policy (now.take (Quantity.combineOrZero policy) symbol o.1) rest o.2 := by
  rw [tallyRest]

end Term

namespace Node
open Slot

variable {σ : Type} [ScrollSource σ] (policy : DivisionPolicy)

/-- Where operands have the values that the pass finds, so have the nodes it would keep. -/
theorem live_takeAll {rest : List (String × Operand)}
    (hrest : ∀ next ∈ rest, ∀ source : σ,
      (leaf policy next.2.val).live source = next.2.val.tally policy source)
    (now : Running Node) (source : σ) :
    ((now.takeAll (join policy) (rest.map fun next => (next.1, leaf policy next.2.val))).close
        (join policy)).live source =
      Term.tallyRest policy (now.live source).1
        (Series.followers Subtype.val Term.operator rest) (now.live source).2 := by
  induction rest generalizing now with
  | nil =>
    rw [Series.followers_nil, Term.tallyRest]
    · exact Running.live_close policy now source
    · exact nofun
  | cons next rest ih =>
    obtain ⟨hnext, hrest⟩ := List.forall_mem_cons.mp hrest
    rw [List.map_cons, Running.takeAll_cons, ih hrest, Running.live_take, Series.followers_cons,
      Term.tallyRest_cons]
    simp only [hnext]

/-- The tree of a series is folded as the pass folds it. -/
theorem sum_cut_eq_close (series : Series Operand) :
    series.cut.sum policy =
      (Running.takeAll (join policy)
        (series.rest.map fun next => (next.1, leaf policy next.2.val))
        ⟨none, leaf policy series.first.val⟩).close (join policy) := by
  have hpass := Running.close_takeAll_first (join policy)
    (series.map fun operand => leaf policy operand.val)
  rw [Series.cut_map, Series.map_map] at hpass
  exact hpass.symm

theorem live_sum_cut {series : Series Operand}
    (h : ∀ operand ∈ series.members, ∀ source : σ,
      (leaf policy operand.val).live source = operand.val.tally policy source)
    (source : σ) :
    (series.cut.sum policy).live source = Term.tallyTerms policy series.terms source := by
  obtain ⟨hfirst, hrest⟩ := List.forall_mem_cons.mp h
  rw [sum_cut_eq_close, live_takeAll policy (List.forall_mem_map.mp hrest), Running.live,
    Series.terms, Series.entries, Term.tallyTerms]
  simp only [hfirst]

/-- One argument has the value of the pass over it, if it alternates. -/
theorem live_ofCalculation (name : String) {arguments : List (List Term)} (log : Log)
    (h : ∀ terms ∈ arguments, ∀ term ∈ terms, ∀ source : σ,
      (leaf policy term).live source = term.tally policy source)
    (source : σ) :
    (ofCalculation policy name arguments log).1.live source =
      Term.tallyArguments policy arguments source := by
  by_cases hlength : arguments.length = 1
  · obtain ⟨terms, rfl⟩ := List.length_eq_one_iff.mp hlength
    rw [ofCalculation_fst, Term.tallyArguments]
    split
    next halternates =>
      obtain ⟨series, rfl⟩ := (Series.alternates_iff terms).mp halternates
      rw [build_terms]
      exact live_sum_cut policy (fun operand hmem => h _ (by simp) _ (Series.val_mem_terms hmem))
        source
    next halternates =>
      cases hbuild : build policy (terms.map (Slot.ofTerm policy)) with
      | error error => rfl
      | ok tree =>
        have hseries := exists_series_of_build hbuild
        exact absurd ((Series.alternates_iff terms).mpr hseries) halternates
  · rw [ofCalculation_fst_of_length_ne_one policy name hlength, Term.tallyArguments]
    · rfl
    · rintro terms rfl
      exact hlength rfl

/-- The node of a term, with all that is nested in it, has the value found without it. -/
theorem live_leaf (term : Term) (source : σ) :
    (leaf policy term).live source = term.tally policy source := by
  induction term generalizing source with
  | number quantity => rfl
  | identifier name => rfl
  | operator symbol => rfl
  | call name arguments ih =>
    rw [leaf, ofTerm, Term.tally]
    rcases Builtin.ofName? name with _ | _ | _
    · rfl
    · exact live_ofCalculation policy name #[] ih source
    · rfl

/-- At any time in a run, a calculation over an alternating list evaluates to the result of one
pass over the list, and leaves the source as the pass does. -/
theorem evaluate_run_eq_tallyTerms (name : String) (series : Series Operand) (log : Log)
    (moves : List (Move σ)) (host : Host σ) :
    let built := (ofCalculation policy name [series.terms] log).1
    let now := run moves built host
    let o := now.next.evaluate now.host
    (o.value, o.host.source) = Term.tallyTerms policy series.terms now.host.source := by
  intro built now o
  have hcoherent : now.next.Coherent :=
    coherent_run (coherent_ofCalculation policy name [series.terms] log) moves host
  have ho : Faithful now.next now.host.source o := faithful_evaluate hcoherent now.host
  have halternates : Term.alternates series.terms = true :=
    (Series.alternates_iff series.terms).mpr ⟨series, rfl⟩
  calc (o.value, o.host.source)
      = now.next.live now.host.source := by rw [ho.value_eq, ho.source_eq]
    _ = built.live now.host.source := live_congr (forget_run moves built host) now.host.source
    _ = Term.tallyArguments policy [series.terms] now.host.source :=
        live_ofCalculation policy name log (fun _ _ term _ => live_leaf policy term)
          now.host.source
    _ = Term.tallyTerms policy series.terms now.host.source := by
        rw [Term.tallyArguments, if_pos halternates]

end Node
end LiveStyle
