import LiveStyle.Proofs.Evaluation.Computation

/-! # Histories of trees

The history of a tree leaves a tally: how often each node has computed since it was built, through
all evaluations of the tree, of nodes in it and of what it was joined from.  Over a whole history a
constant node computes once at most, and its memory says whether it has.
-/
namespace LiveStyle.Node

/-- The trees that can be reached, each with the tally of all computations so far. -/
inductive Tallied : Node → Tally → Prop
  | term (policy : DivisionPolicy) (term : Term) (log : Log) :
      Tallied (ofTerm policy term log).1 .zero
  | calculation (policy : DivisionPolicy) (name : String) (arguments : List (List Term))
      (log : Log) : Tallied (ofCalculation policy name arguments log).1 .zero
  | environment (arguments : List (List Term)) (log : Log) :
      Tallied (ofEnvironment arguments log).1 .zero
  | join (policy : DivisionPolicy) (symbol : String) {left right : Node}
      {leftTally rightTally : Tally} : Tallied left leftTally → Tallied right rightTally →
      Tallied (join policy symbol left right) (.above 0 (.operands leftTally rightTally))
  | evaluated {σ : Type} [ScrollSource σ] (path : List Step) (host : Host σ) {node : Node}
      {tally : Tally} : Tallied node tally →
      Tallied (evaluateAt path node host).next
        (fun place => tally place + (watchAt path node host).2 place)

theorem Tallied.reached {node : Node} {tally : Tally} (h : Tallied node tally) : Reached node := by
  induction h with
  | term policy term log => exact .term policy term log
  | calculation policy name arguments log => exact .calculation policy name arguments log
  | environment arguments log => exact .environment arguments log
  | join policy symbol _ _ hl hr => exact .join policy symbol hl hr
  | evaluated path host _ ih => exact .evaluated path host ih

theorem Reached.exists_tallied {node : Node} (h : Reached node) : ∃ tally, Tallied node tally := by
  induction h with
  | term policy term log => exact ⟨_, .term policy term log⟩
  | calculation policy name arguments log => exact ⟨_, .calculation policy name arguments log⟩
  | environment arguments log => exact ⟨_, .environment arguments log⟩
  | join policy symbol _ _ hl hr =>
    obtain ⟨leftTally, hl⟩ := hl
    obtain ⟨rightTally, hr⟩ := hr
    exact ⟨_, .join policy symbol hl hr⟩
  | evaluated path host _ ih =>
    obtain ⟨tally, ih⟩ := ih
    exact ⟨_, .evaluated path host ih⟩

/-- Through all evaluations, a tree remembers what it remembered before. -/
theorem Later.keptBy {first node : Node} (h : first.Later node) : first.KeptBy node := by
  induction h with
  | now => exact fun _ _ => id
  | @evaluated τ _ path host node _ ih =>
    have hkept := (workedThroughout_watchAt path node host).keptBy
    rw [watchAt_fst] at hkept
    exact fun place value hstored => hkept place value (ih place value hstored)

/-- The tally of a constant node is one if it remembers and zero if not. -/
def Balanced (node : Node) (tally : Tally) : Prop :=
  ∀ path below, descend? path node = some below → below.isConstant = true →
    tally path = below.due

structure Settled (node : Node) (tally : Tally) : Prop where
  empty : ∀ below, node.Contains below → below.isConstant = false → below.stored? = none
  /-- A node that remembers has the live value, from every source, and all below it remember. -/
  filled : ∀ below value, node.Contains below → below.stored? = some value →
    (∀ (σ : Type) [ScrollSource σ] (source : σ), below.live source = (value, source)) ∧
      ∀ lower, below.Contains lower → lower.isCompound = true → lower.stored?.isSome = true
  once : node.Balanced tally

section Balanced
variable {node left right : Node} {tally leftTally rightTally : Tally}

theorem balanced_leaf (policy : DivisionPolicy) (term : Term) :
    (leaf policy term).Balanced .zero := by
  have hempty : ∀ below, (leaf policy term).Contains below → below.stored? = none := by
    refine leaf_induction (P := fun node => ∀ below, node.Contains below → below.stored? = none)
      ?_ ?_ ?_ ?_ ?_ term
    · simp [stored?]
    · simp [stored?]
    · simp +contextual [join, stored?, Memo.fresh, or_imp]
    · simp +contextual [enclose, stored?, Memo.fresh, or_imp]
    · simp [fail, stored?, Memo.fresh]
  intro path below hpath _
  rw [due, hempty below ⟨path, hpath⟩]
  rfl

theorem balanced_join (policy : DivisionPolicy) (symbol : String) (hl : left.Balanced leftTally)
    (hr : right.Balanced rightTally) :
    (join policy symbol left right).Balanced (.above 0 (.operands leftTally rightTally)) := by
  intro path below hpath hconstant
  cases path with
  | nil =>
    cases hpath
    rfl
  | cons step path =>
    cases step with
    | inner => cases hpath
    | left => exact hl path below hpath hconstant
    | right => exact hr path below hpath hconstant

theorem exists_descend?_of_forget {a b below : Node} (h : a.forget = b.forget) {path : List Step}
    (hpath : descend? path a = some below) :
    ∃ other, descend? path b = some other ∧ other.forget = below.forget := by
  have hplaces : (descend? path a).map forget = (descend? path b).map forget := by
    rw [← descend?_forget, h, descend?_forget]
  rw [hpath, Option.map_some, eq_comm, Option.map_eq_some_iff] at hplaces
  exact hplaces

theorem isConstant_congr {a b : Node} (h : a.forget = b.forget) : a.isConstant = b.isConstant := by
  have hforget (node : Node) : node.forget.isConstant = node.isConstant := by cases node <;> rfl
  rw [← hforget a, h, hforget b]

/-- Work done throughout a tree keeps the tally of its constant nodes right. -/
theorem Balanced.add {after : Node} {work : Tally} (h : node.Balanced tally)
    (hforget : after.forget = node.forget) (hwork : node.WorkedThroughout after work) :
    after.Balanced (fun place => tally place + work place) := by
  intro path below hpath hconstant
  obtain ⟨before, hbefore, hsame⟩ := exists_descend?_of_forget hforget hpath
  obtain ⟨next, hnext, hworked⟩ := hwork path before hbefore
  cases hpath.symm.trans hnext
  have hearlier : before.isConstant = true := (isConstant_congr hsame).trans hconstant
  calc tally path + work path
      = before.due + work path := by rw [h path before hbefore hearlier]
    _ = below.due := hworked.add_due hearlier

theorem Tallied.balanced (h : Tallied node tally) : node.Balanced tally := by
  induction h with
  | term policy term log =>
    rw [ofTerm_fst]
    exact balanced_leaf policy term
  | calculation policy name arguments log =>
    rw [ofCalculation_eq_leaf]
    exact balanced_leaf policy _
  | environment arguments log => exact balanced_leaf .ieee (.call "env" arguments)
  | join policy symbol _ _ hl hr => exact balanced_join policy symbol hl hr
  | @evaluated σ _ path host node tally _ ih =>
    have hwork := workedThroughout_watchAt path node host
    rw [watchAt_fst] at hwork
    exact ih.add (forget_evaluateAt path node host) hwork

end Balanced

theorem Coherent.settled {node : Node} {tally : Tally} (h : node.Coherent)
    (hfilled : node.FilledFromBelow) (htally : node.Balanced tally) : node.Settled tally := by
  refine ⟨?_, ?_, htally⟩
  · intro below hbelow hchanging
    cases hstored : below.stored? with
    | none => rfl
    | some value =>
      have hconstant := (hfilled.of_contains hbelow).of_stored? (Option.isSome_of_eq_some hstored)
      cases hchanging.symm.trans hconstant.1
  · intro below value hbelow hstored
    obtain ⟨path, hpath⟩ := hbelow
    have hvalue : below.fixed? = some value := (h.descend hpath).fixed?_of_stored? hstored
    have hbelow := (hfilled.of_contains ⟨path, hpath⟩).of_stored?
      (Option.isSome_of_eq_some hstored)
    refine ⟨fun σ _ source => live_of_fixed? hvalue source, ?_⟩
    intro lower hlower hcompound
    exact (hbelow.2.of_contains hlower).isSome_stored? hcompound

theorem Tallied.settled {node : Node} {tally : Tally} (h : Tallied node tally) :
    node.Settled tally :=
  h.reached.coherent.settled h.reached.filledFromBelow h.balanced

end LiveStyle.Node
