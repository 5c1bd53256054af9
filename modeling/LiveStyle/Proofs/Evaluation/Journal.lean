import LiveStyle.Proofs.Evaluation.Reports

/-! # What becomes of faults in the long run

The journal of a tree is what has been reported from its places since it was built, through all
evaluations of the tree, of nodes in it and of what it was joined from.  A constant operator that
faults stands in it once from the first evaluation on that gets there, and one that can change for
each evaluation in which it faults.  So no fault goes unreported.
-/
namespace LiveStyle.Node

inductive Chronicled : Node → Journal → Prop
  | term (policy : DivisionPolicy) (term : Term) (log : Log) :
      Chronicled (ofTerm policy term log).1 []
  | calculation (policy : DivisionPolicy) (name : String) (arguments : List (List Term))
      (log : Log) : Chronicled (ofCalculation policy name arguments log).1 []
  | environment (arguments : List (List Term)) (log : Log) :
      Chronicled (ofEnvironment arguments log).1 []
  | join (policy : DivisionPolicy) (symbol : String) {left right : Node}
      {leftJournal rightJournal : Journal} : Chronicled left leftJournal →
      Chronicled right rightJournal →
      Chronicled (join policy symbol left right)
        (beneath [.left] leftJournal ++ beneath [.right] rightJournal)
  | evaluated {σ : Type} [ScrollSource σ] (start : List Step) (host : Host σ) {node : Node}
      {journal : Journal} : Chronicled node journal →
      Chronicled (evaluateAt start node host).next (journal ++ reportsAt start node host)

theorem Chronicled.reached {node : Node} {journal : Journal} (h : Chronicled node journal) :
    Reached node := by
  induction h with
  | term policy term log => exact .term policy term log
  | calculation policy name arguments log => exact .calculation policy name arguments log
  | environment arguments log => exact .environment arguments log
  | join policy symbol _ _ hl hr => exact .join policy symbol hl hr
  | evaluated start host _ ih => exact .evaluated start host ih

theorem Reached.exists_chronicled {node : Node} (h : Reached node) :
    ∃ journal, Chronicled node journal := by
  induction h with
  | term policy term log => exact ⟨_, .term policy term log⟩
  | calculation policy name arguments log => exact ⟨_, .calculation policy name arguments log⟩
  | environment arguments log => exact ⟨_, .environment arguments log⟩
  | join policy symbol _ _ hl hr =>
    obtain ⟨leftJournal, hl⟩ := hl
    obtain ⟨rightJournal, hr⟩ := hr
    exact ⟨_, .join policy symbol hl hr⟩
  | evaluated start host _ ih =>
    obtain ⟨journal, ih⟩ := ih
    exact ⟨_, .evaluated start host ih⟩

/-- A constant node has reported its fault once if it remembers, and not at all if not. -/
def ReportedOnce (node : Node) (journal : Journal) : Prop :=
  ∀ path below, descend? path node = some below → below.isCompound = true →
    below.isConstant = true → ∀ (σ : Type) [ScrollSource σ] (host : Host σ),
      degradationsAt path journal =
        if below.stored?.isSome then (below.degradation? host).toList else []

section Memory
variable {node below : Node} {path : List Step}

theorem isCompound_congr {a b : Node} (h : a.forget = b.forget) : a.isCompound = b.isCompound := by
  have hforget (node : Node) : node.forget.isCompound = node.isCompound := by cases node <;> rfl
  rw [← hforget a, h, hforget b]

theorem due_eq_one_iff : node.due = 1 ↔ node.stored?.isSome = true := by
  rw [due]
  split <;> simp [*]

theorem isSome_stored?_of_remembers (h : node.remembers = true) : node.stored?.isSome = true := by
  have hmemo {memo : Memo Quantity} (h : memo.remembered.isSome = true) :
      memo.value.isSome = true := by
    obtain ⟨value, hvalue⟩ := Option.isSome_iff_exists.mp h
    exact Option.isSome_of_eq_some (Memo.value_of_remembered hvalue)
  cases node with
  | operator symbol left right policy memo => exact hmemo h
  | calculation inner memo => exact hmemo h
  | broken error memo => exact hmemo h
  | _ => cases h

/-- A node that is not visited stands below one that remembers. -/
theorem FilledFromBelow.of_not_visits (h : node.FilledFromBelow)
    (hpath : descend? path node = some below) (hvisits : visits path node = false) :
    below.Filled := by
  induction path generalizing node with
  | nil => cases hvisits
  | cons step path ih =>
    cases hremembers : node.remembers with
    | true =>
      have hfilled := (h.of_stored? (isSome_stored?_of_remembers hremembers)).2
      exact hfilled.of_contains ⟨_, hpath⟩
    | false =>
      obtain ⟨child, hchild, hpath⟩ := Option.bind_eq_some_iff.mp hpath
      rw [visits, hremembers, hchild] at hvisits
      exact ih (h.child hchild) hpath hvisits

variable {σ τ : Type} [ScrollSource σ] [ScrollSource τ]

theorem Coherent.value_eq_of_constant {a b : Node} (ha : a.Coherent) (hb : b.Coherent)
    (h : a.forget = b.forget) (hconstant : a.isConstant = true) (host : Host σ)
    (other : Host τ) : (a.evaluate host).value = (b.evaluate other).value := by
  rw [ha.isConstant_eq] at hconstant
  obtain ⟨value, hvalue⟩ := Option.isSome_iff_exists.mp hconstant
  rw [(faithful_evaluate ha host).value_eq, (faithful_evaluate hb other).value_eq,
    live_of_fixed? hvalue, live_of_fixed? (fixed?_congr h ▸ hvalue)]

/-- A constant operator faults alike in all hosts. -/
theorem Coherent.degradation?_eq_of_constant {a b : Node} (ha : a.Coherent) (hb : b.Coherent)
    (h : a.forget = b.forget) (hconstant : a.isConstant = true) (host : Host σ)
    (other : Host τ) : a.degradation? host = b.degradation? other := by
  cases b with
  | operator symbol left right policy memo =>
    obtain ⟨l, r, own, rfl, hl, hr, -⟩ := eq_operator_of_forget h
    obtain ⟨hleft, hright⟩ := ha.isConstant_operands hconstant
    rw [degradation?, degradation?, ha.1.value_eq_of_constant hb.1 hl hleft host other,
      ha.2.1.value_eq_of_constant hb.2.1 hr hright _ (left.evaluate other).host]
  | calculation inner memo =>
    obtain ⟨i, own, rfl, -⟩ := eq_calculation_of_forget h
    rfl
  | broken error memo =>
    obtain ⟨own, rfl, -⟩ := eq_broken_of_forget h
    rfl
  | _ =>
    cases a <;> cases h
    rfl

end Memory

section Evaluated
variable {node first below : Node} {start rest : List Step} {σ : Type} [ScrollSource σ]

/-- What has computed in an evaluation has reported its fault, and nothing else has. -/
theorem degradationsAt_reportsAt (hstart : descend? start node = some first)
    (hrest : descend? rest first = some below) (hcompound : below.isCompound = true)
    (host : Host σ) :
    degradationsAt (start ++ rest) (reportsAt start node host) =
      if (watchAt start node host).2 (start ++ rest) = 0 then []
      else (below.degradation? (arrival rest first host)).toList := by
  rw [degradationsAt, eventsAt_reportsAt hstart hrest, watchAt_snd_append hstart,
    watch_snd_eq hrest hcompound]
  cases visits rest first with
  | false => rfl
  | true =>
    rw [if_pos rfl, filterMap_degradation?_ownEvents]
    cases below.remembers <;> rfl

/-- A node that can change reports its fault in every evaluation that starts at it or above it. -/
theorem Coherent.degradationsAt_changing (h : node.Coherent)
    (hstart : descend? start node = some first) (hrest : descend? rest first = some below)
    (hcompound : below.isCompound = true) (hchanging : below.isConstant = false)
    (host : Host σ) :
    degradationsAt (start ++ rest) (reportsAt start node host) =
      (below.degradation? (arrival rest first host)).toList := by
  rw [degradationsAt_reportsAt hstart hrest hcompound, watchAt_snd_append hstart,
    (h.descend hstart).watch_snd hrest hchanging host, if_neg Nat.one_ne_zero]

/-- A constant node remembers after every evaluation that starts at it or above it. -/
theorem FilledFromBelow.isSome_stored?_evaluateAt (h : node.FilledFromBelow)
    (hstart : descend? start node = some first) (hrest : descend? rest first = some below)
    (hcompound : below.isCompound = true) (hconstant : below.isConstant = true)
    (host : Host σ) :
    ∃ next, descend? (start ++ rest) (Node.evaluateAt start node host).next = some next ∧
      next.forget = below.forget ∧ next.stored?.isSome = true := by
  have hpath : descend? (start ++ rest) node = some below := by
    rw [descend?_append, hstart]
    exact hrest
  obtain ⟨next, hnext, hworked⟩ := workedThroughout_watchAt start node host _ below hpath
  rw [watchAt_fst] at hnext
  refine ⟨next, hnext, ?_, ?_⟩
  · obtain ⟨found, hfound, hforget⟩ :=
      exists_descend?_of_forget (forget_evaluateAt start node host) hnext
    cases hpath.symm.trans hfound
    exact hforget.symm
  · cases hstored : below.stored? with
    | some value => exact Option.isSome_of_eq_some (hworked.stored?_eq hstored)
    | none =>
      -- It is visited, since it would be filled otherwise, and computes.
      have hvisits : visits rest first = true := by
        cases hvisits : visits rest first with
        | true => rfl
        | false =>
          have hfilled := (h.of_contains ⟨start, hstart⟩).of_not_visits hrest hvisits
          cases hstored ▸ hfilled.isSome_stored? hcompound
      have hforgotten : below.remembers = false := by
        cases hremembers : below.remembers with
        | false => rfl
        | true => cases hstored ▸ isSome_stored?_of_remembers hremembers
      rw [← due_eq_one_iff, ← hworked.add_due hconstant, watchAt_snd_append hstart,
        watch_snd_eq hrest hcompound, hvisits, hforgotten, due, hstored]
      rfl

end Evaluated

section Once
variable {node : Node} {journal : Journal}

theorem reportedOnce_leaf (policy : DivisionPolicy) (term : Term) :
    (leaf policy term).ReportedOnce [] := by
  intro path below hpath _ hconstant σ _ host
  have hdue := balanced_leaf policy term path below hpath hconstant
  rw [due] at hdue
  split
  next hstored =>
    rw [if_pos hstored] at hdue
    cases hdue
  next => rfl

theorem reportedOnce_join (policy : DivisionPolicy) (symbol : String) {left right : Node}
    {leftJournal rightJournal : Journal} (hl : left.ReportedOnce leftJournal)
    (hr : right.ReportedOnce rightJournal) :
    (join policy symbol left right).ReportedOnce
      (beneath [.left] leftJournal ++ beneath [.right] rightJournal) := by
  intro path below hpath hcompound hconstant σ _ host
  cases path with
  | nil =>
    cases hpath
    simp [degradationsAt, join, stored?, Memo.fresh]
  | cons step path =>
    cases step with
    | inner => cases hpath
    | left =>
      rw [← hl path below hpath hcompound hconstant σ host]
      simp [degradationsAt]
    | right =>
      rw [← hr path below hpath hcompound hconstant σ host]
      simp [degradationsAt]

/-- An evaluation reports the fault of a constant node when it goes from empty to filled. -/
theorem ReportedOnce.evaluateAt {σ : Type} [ScrollSource σ] (h : node.ReportedOnce journal)
    (hcoherent : node.Coherent) (start : List Step) (host : Host σ) :
    (Node.evaluateAt start node host).next.ReportedOnce
      (journal ++ reportsAt start node host) := by
  intro path after hpath hcompound hconstant τ _ other
  have hforget := forget_evaluateAt start node host
  obtain ⟨before, hbefore, hsame⟩ := exists_descend?_of_forget hforget hpath
  have hcompound' : before.isCompound = true := (isCompound_congr hsame).trans hcompound
  have hconstant' : before.isConstant = true := (isConstant_congr hsame).trans hconstant
  have hfault {arrived : Host σ} : before.degradation? arrived = after.degradation? other :=
    (hcoherent.descend hbefore).degradation?_eq_of_constant
      ((coherent_evaluateAt hcoherent start host).descend hpath) hsame hconstant' arrived other
  have hnow : degradationsAt path (reportsAt start node host) =
      if (watchAt start node host).2 path = 0 then [] else (after.degradation? other).toList := by
    by_cases hprefix : start <+: path
    · obtain ⟨rest, rfl⟩ := hprefix
      rw [descend?_append] at hbefore
      obtain ⟨first, hstart, hrest⟩ := Option.bind_eq_some_iff.mp hbefore
      rw [degradationsAt_reportsAt hstart hrest hcompound', hfault]
    · rw [degradationsAt, eventsAt_reportsAt_outside hprefix, watchAt_snd_outside hprefix]
      rfl
  obtain ⟨next, hnext, hworked⟩ := workedThroughout_watchAt start node host path before hbefore
  rw [watchAt_fst] at hnext
  cases hpath.symm.trans hnext
  rw [degradationsAt_append, hnow, h path before hbefore hcompound' hconstant' σ host, hfault]
  generalize (watchAt start node host).2 path = work at hworked
  cases hworked with
  | rested hafter => rw [hafter, if_pos rfl, List.append_nil]
  | computed value hempty hafter =>
    rw [hafter, hempty hconstant', if_pos hconstant', if_neg Nat.one_ne_zero]
    rfl

theorem Chronicled.reportedOnce (h : Chronicled node journal) : node.ReportedOnce journal := by
  induction h with
  | term policy term log =>
    rw [ofTerm_fst]
    exact reportedOnce_leaf policy term
  | calculation policy name arguments log =>
    rw [ofCalculation_eq_leaf]
    exact reportedOnce_leaf policy _
  | environment arguments log => exact reportedOnce_leaf .ieee (.call "env" arguments)
  | join policy symbol _ _ hl hr => exact reportedOnce_join policy symbol hl hr
  | evaluated start host h ih => exact ih.evaluateAt h.reached.coherent start host

end Once

/-- What the faults of a tree come to in its journal. -/
structure Accounted (node : Node) (journal : Journal) : Prop where
  once : node.ReportedOnce journal
  /-- A constant node remembers from the first evaluation on that starts at it or above it. -/
  first : ∀ start rest first below, descend? start node = some first →
    descend? rest first = some below → below.isCompound = true → below.isConstant = true →
      ∀ (σ : Type) [ScrollSource σ] (host : Host σ),
        ∃ next, descend? (start ++ rest) (evaluateAt start node host).next = some next ∧
          next.forget = below.forget ∧ next.stored?.isSome = true
  /-- A node that can change reports its fault in each such evaluation in which it faults. -/
  each : ∀ start rest first below, descend? start node = some first →
    descend? rest first = some below → below.isCompound = true → below.isConstant = false →
      ∀ (σ : Type) [ScrollSource σ] (host : Host σ),
        degradationsAt (start ++ rest) (reportsAt start node host) =
          (below.degradation? (arrival rest first host)).toList
  /-- Whatever faults in an evaluation has been reported by its end. -/
  complete : ∀ start rest first below, descend? start node = some first →
    descend? rest first = some below → ∀ (σ : Type) [ScrollSource σ] (host : Host σ),
      ∀ d ∈ below.degradation? (arrival rest first host),
        d ∈ degradationsAt (start ++ rest) (journal ++ reportsAt start node host)

theorem isCompound_of_mem_degradation? {σ : Type} [ScrollSource σ] {node : Node} {host : Host σ}
    {d : Degradation} (h : d ∈ node.degradation? host) : node.isCompound = true := by
  cases node <;> first | rfl | cases h

/-- A constant node that remembers has reported what it faults with. -/
theorem Chronicled.mem_degradationsAt {node next below : Node} {journal : Journal}
    {path : List Step} {σ : Type} [ScrollSource σ] {host : Host σ} {d : Degradation}
    (h : Chronicled node journal) (hpath : descend? path node = some next)
    (hforget : next.forget = below.forget) (hstored : next.stored?.isSome = true)
    (hbelow : below.Coherent) (hconstant : below.isConstant = true)
    (hd : d ∈ below.degradation? host) : d ∈ degradationsAt path journal := by
  have hcompound : next.isCompound = true :=
    (isCompound_congr hforget).trans (isCompound_of_mem_degradation? hd)
  have hnext : next.isConstant = true := (isConstant_congr hforget).trans hconstant
  rw [h.reportedOnce path next hpath hcompound hnext σ host, if_pos hstored,
    (h.reached.coherent.descend hpath).degradation?_eq_of_constant hbelow hforget hnext host host]
  exact Option.mem_toList.mpr hd

theorem Chronicled.accounted {node : Node} {journal : Journal} (h : Chronicled node journal) :
    node.Accounted journal where
  once := h.reportedOnce
  first _ _ _ _ hstart hrest hcompound hconstant _ _ host :=
    h.reached.filledFromBelow.isSome_stored?_evaluateAt hstart hrest hcompound hconstant host
  each _ _ _ _ hstart hrest hcompound hchanging _ _ host :=
    h.reached.coherent.degradationsAt_changing hstart hrest hcompound hchanging host
  complete start rest first below hstart hrest σ _ host d hd := by
    have hcompound := isCompound_of_mem_degradation? hd
    cases hconstant : below.isConstant with
    | false =>
      rw [degradationsAt_append, h.reached.coherent.degradationsAt_changing hstart hrest hcompound
        hconstant host]
      exact List.mem_append_right _ (Option.mem_toList.mpr hd)
    | true =>
      obtain ⟨next, hnext, hforget, hstored⟩ := h.reached.filledFromBelow.isSome_stored?_evaluateAt
        hstart hrest hcompound hconstant host
      have hbelow := (h.reached.coherent.descend hstart).descend hrest
      exact (h.evaluated start host).mem_degradationsAt hnext hforget hstored hbelow hconstant hd

end LiveStyle.Node
