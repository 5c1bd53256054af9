import LiveStyle.Proofs.Evaluation.RunningTotal
import LiveStyle.Proofs.Scroll.Snapshots
import LiveStyle.Proofs.Term.LiveReads

/-! # Sampling

An evaluation takes one snapshot for each live read of its term, and uses them in the order in
which the live reads are written: its value is that of the term to which the snapshots have been
supplied as numbers.  Neither precedence nor faults nor memory show in this.
-/
namespace LiveStyle
open ScrollSource (skip nth)

def readings {σ : Type} [ScrollSource σ] (source : σ) (n : Nat) : Quantity :=
  .unitless (nth n source).fraction

namespace Term

variable {σ τ : Type} [ScrollSource σ] [ScrollSource τ] {policy : DivisionPolicy}
  {start : σ} {other : τ} {first : Nat}

/-- After `first` snapshots from `start`, a computation takes `count` more and has the value of
another one, which takes none. -/
def Samples {α : Type} (start : σ) (other : τ) (first count : Nat) (sampled : σ → α × σ)
    (supplied : τ → α × τ) : Prop :=
  ∃ value, sampled (skip first start) = (value, skip (first + count) start) ∧
    supplied other = (value, other)

/-- What a term samples, from any place in the row of snapshots. -/
def SamplesSupplied (policy : DivisionPolicy) (start : σ) (other : τ) (term : Term) : Prop :=
  ∀ first, Samples start other first term.liveReads (term.tally policy)
    ((term.supply (readings start) first).tally policy)

theorem samples_rest {rest : List (String × Operand)}
    (h : ∀ next ∈ rest, SamplesSupplied policy start other next.2.val)
    (now : Running Quantity) (first : Nat) :
    let terms := Series.followers Subtype.val Term.operator rest
    Samples start other first (liveReadsTerms terms) (tallyRest policy now terms)
      (tallyRest policy now (supplyTerms (readings start) first terms)) := by
  induction rest generalizing now first with
  | nil => exact ⟨_, rfl, rfl⟩
  | cons next rest ih =>
    obtain ⟨hnext, hrest⟩ := List.forall_mem_cons.mp h
    -- The rest goes on from the snapshot after those of this operand, with the same running total.
    obtain ⟨value, hsampled, hsupplied⟩ := hnext first
    obtain ⟨result, hrestSampled, hrestSupplied⟩ :=
      ih hrest (now.take (Quantity.combineOrZero policy) next.1 value)
        (first + next.2.val.liveReads)
    refine ⟨result, ?_, ?_⟩
    · rw [Series.followers_cons, tallyRest_cons, hsampled, liveReadsTerms_cons_operator,
        ← Nat.add_assoc]
      exact hrestSampled
    · rw [Series.followers_cons, supplyTerms_cons_operator, tallyRest_cons, hsupplied]
      exact hrestSupplied

/-- Operands are sampled from left to right, each after those before it. -/
theorem samples_terms {series : Series Operand}
    (h : ∀ operand ∈ series.members, SamplesSupplied policy start other operand.val)
    (first : Nat) :
    Samples start other first (liveReadsTerms series.terms) (tallyTerms policy series.terms)
      (tallyTerms policy (supplyTerms (readings start) first series.terms)) := by
  obtain ⟨hfirst, hrest⟩ := List.forall_mem_cons.mp h
  obtain ⟨value, hsampled, hsupplied⟩ := hfirst first
  obtain ⟨result, hrestSampled, hrestSupplied⟩ :=
    samples_rest (fun next hmem => hrest _ (List.mem_map_of_mem hmem)) ⟨none, value⟩
      (first + series.first.val.liveReads)
  refine ⟨result, ?_, ?_⟩
  · rw [Series.terms, Series.entries, tallyTerms, hsampled, liveReadsTerms, ← Nat.add_assoc]
    exact hrestSampled
  · rw [Series.terms, Series.entries, supplyTerms, tallyTerms, hsupplied]
    exact hrestSupplied

theorem samples_arguments {arguments : List (List Term)}
    (h : ∀ terms ∈ arguments, ∀ term ∈ terms, SamplesSupplied policy start other term)
    (first : Nat) :
    Samples start other first (liveReadsArguments arguments) (tallyArguments policy arguments)
      (tallyArguments policy (supplyArguments (readings start) first arguments)) := by
  rcases arguments with _ | ⟨terms, _ | ⟨more, rest⟩⟩
  · exact ⟨.zero, rfl, rfl⟩
  · rw [liveReadsArguments, supplyArguments]
    cases halternates : alternates terms with
    | true =>
      obtain ⟨series, rfl⟩ := (Series.alternates_iff terms).mp halternates
      have hmembers : ∀ operand ∈ series.members, SamplesSupplied policy start other operand.val :=
        fun operand hmem => h _ (by simp) _ (Series.val_mem_terms hmem)
      obtain ⟨value, hsampled, hsupplied⟩ := samples_terms hmembers first
      refine ⟨value, ?_, ?_⟩
      · rw [tallyArguments, if_pos halternates]
        exact hsampled
      · rw [if_pos rfl, tallyArguments, alternates_supplyTerms, if_pos halternates]
        exact hsupplied
    | false =>
      refine ⟨.zero, ?_, ?_⟩
      · rw [tallyArguments, halternates]
        rfl
      · rw [if_neg Bool.false_ne_true, tallyArguments, halternates]
        rfl
  · exact ⟨.zero, rfl, rfl⟩

theorem snapshot_of_readsScroll {arguments : List (List Term)} (h : ReadsScroll arguments)
    (source : σ) :
    Node.snapshot (Node.environmentName arguments) source =
      (readings source 0, (ScrollSource.metrics source).2) := by
  rw [Node.snapshot, if_pos h]
  rfl

theorem snapshot_of_not_readsScroll {arguments : List (List Term)} (h : ¬ ReadsScroll arguments)
    (source : σ) :
    Node.snapshot (Node.environmentName arguments) source = (.zero, source) := by
  rw [Node.snapshot, if_neg h]

/-- A term takes one snapshot for each of its live reads, and has the value of the term to which
these are supplied. -/
theorem samplesSupplied (policy : DivisionPolicy) (start : σ) (other : τ) (term : Term) :
    SamplesSupplied policy start other term := by
  induction term with
  | number quantity => exact fun first => ⟨quantity, rfl, rfl⟩
  | identifier name => exact fun first => ⟨.zero, rfl, rfl⟩
  | operator symbol => exact fun first => ⟨.zero, rfl, rfl⟩
  | call name arguments ih =>
    intro first
    rw [liveReads, supply]
    rcases hname : Builtin.ofName? name with _ | _ | _
    · refine ⟨.zero, ?_, ?_⟩
      · rw [tally, hname]
        rfl
      · rw [tally, hname]
    · obtain ⟨value, hsampled, hsupplied⟩ := samples_arguments ih first
      refine ⟨value, ?_, ?_⟩
      · rw [tally, hname]
        exact hsampled
      · rw [tally, hname]
        exact hsupplied
    · by_cases hscroll : ReadsScroll arguments
      · refine ⟨readings start first, ?_, ?_⟩
        · rw [tally, hname]
          dsimp only
          rw [snapshot_of_readsScroll hscroll, if_pos hscroll, ScrollSource.skip_succ]
          rfl
        · dsimp only
          rw [if_pos hscroll, tally]
      · refine ⟨.zero, ?_, ?_⟩
        · rw [tally, hname]
          dsimp only
          rw [snapshot_of_not_readsScroll hscroll, if_neg hscroll, Nat.add_zero]
        · dsimp only
          rw [if_neg hscroll, tally, hname]
          exact snapshot_of_not_readsScroll hscroll other

end Term

/-- The live reads of a calculation that builds are those of its terms, one after the other; one
that does not build has none. -/
theorem Term.liveReads_calculation (policy : DivisionPolicy) (arguments : List (List Term))
    (log : Log) :
    (Term.call "calc" arguments).liveReads =
      if (Node.ofCalculation policy "calc" arguments log).1.buildError?.isNone then
        liveReadsTerms arguments.flatten
      else 0 := by
  change liveReadsArguments arguments = _
  by_cases hlength : arguments.length = 1
  · obtain ⟨terms, rfl⟩ := List.length_eq_one_iff.mp hlength
    rw [Node.ofCalculation_fst, liveReadsArguments, List.flatten_singleton]
    cases hbuild : Slot.build policy (terms.map (Slot.ofTerm policy)) with
    | ok tree =>
      have halternates := (Series.alternates_iff terms).mpr (Slot.exists_series_of_build hbuild)
      rw [if_pos halternates]
      rfl
    | error error =>
      have halternates : ¬ alternates terms = true := by
        intro h
        obtain ⟨series, rfl⟩ := (Series.alternates_iff terms).mp h
        cases hbuild.symm.trans (Slot.build_terms policy series)
      rw [if_neg halternates]
      rfl
  · rw [Node.ofCalculation_fst_of_length_ne_one policy "calc" hlength, liveReadsArguments]
    · rfl
    · rintro terms rfl
      exact hlength rfl

namespace Node

variable {σ : Type} [ScrollSource σ]

theorem Later.evaluate_eq_tally {policy : DivisionPolicy} {term : Term} {log : Log} {now : Node}
    (h : (ofTerm policy term log).1.Later now) (host : Host σ) :
    ((now.evaluate host).value, (now.evaluate host).host.source) =
      term.tally policy host.source := by
  rw [ofTerm_fst] at h
  have hnow := faithful_evaluate (h.coherent (coherent_leaf policy term)) host
  rw [hnow.value_eq, hnow.source_eq, ← live_leaf policy term, live_congr h.forget_eq]

/-- At any time, the node of a term samples the source once for each live read of the term, and has
the value of the term to which the snapshots are supplied in their order. -/
theorem Later.samples {policy : DivisionPolicy} {term : Term} {log : Log} {now : Node}
    (h : (ofTerm policy term log).1.Later now) (host : Host σ) :
    (now.evaluate host).host.source = skip term.liveReads host.source ∧
      ∀ (τ : Type) [ScrollSource τ] (other : Host τ) (log' : Log),
        let supplied := (ofTerm policy (term.supply (readings host.source) 0) log').1
        (now.evaluate host).value = (supplied.evaluate other).value ∧
          (supplied.evaluate other).host.source = other.source := by
  have hnow := h.evaluate_eq_tally host
  constructor
  · obtain ⟨value, hsampled, -⟩ :=
      Term.samplesSupplied policy host.source host.source term 0
    rw [Nat.zero_add] at hsampled
    exact (Prod.mk.inj (hnow.trans hsampled)).2
  · intro τ _ other log' supplied
    obtain ⟨value, hsampled, hsupplied⟩ :=
      Term.samplesSupplied policy host.source other.source term 0
    have hother := (Later.now : supplied.Later supplied).evaluate_eq_tally other
    obtain ⟨hvalue, -⟩ := Prod.mk.inj (hnow.trans hsampled)
    obtain ⟨hothervalue, hothersource⟩ := Prod.mk.inj (hother.trans hsupplied)
    exact ⟨hvalue.trans hothervalue.symm, hothersource⟩

/-- Whatever a node is, evaluating it does nothing to the source but take snapshots. -/
theorem exists_skip_evaluate (node : Node) (host : Host σ) :
    ∃ n, (node.evaluate host).host.source = skip n host.source := by
  fun_induction Node.evaluate node host with
  | case2 identifier host value last hsample =>
    rw [sample_eq] at hsample
    obtain ⟨-, rfl⟩ := Prod.mk.inj hsample
    by_cases hname : identifier = some Variable.windowScrollY.name
    · exact ⟨1, by rw [snapshot, if_pos hname]; rfl⟩
    · exact ⟨0, by rw [snapshot, if_neg hname]; rfl⟩
  | case4 symbol left right policy memo host _ l r value last hdegrade ihl ihr =>
    obtain ⟨m, hl⟩ := ihl
    obtain ⟨n, hr⟩ := ihr
    have hlast := degrade_source policy symbol l.value r.value r.host
    rw [hdegrade] at hlast
    refine ⟨m + n, ?_⟩
    rw [ScrollSource.skip_add, ← hl, ← hr]
    exact hlast
  | case6 inner memo host _ i ih => exact ih
  | _ => exact ⟨0, rfl⟩

theorem exists_skip_evaluateAt (path : List Step) (node : Node) (host : Host σ) :
    ∃ n, (evaluateAt path node host).host.source = skip n host.source := by
  rw [evaluateAt_host]
  cases descend? path node with
  | none => exact ⟨0, rfl⟩
  | some below => exact exists_skip_evaluate below host

end Node
end LiveStyle
