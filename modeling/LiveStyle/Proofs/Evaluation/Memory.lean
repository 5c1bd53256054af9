import LiveStyle.Proofs.Evaluation.Live

/-! # Memory never shows

Evaluation changes nothing of a tree but what its memos remember.  In a coherent tree it
gives the live value, moves the source as the live computation does, and leaves a coherent
tree; so does an evaluation of any node within the tree.
-/
namespace LiveStyle.Node

variable {σ : Type} [ScrollSource σ]

theorem namedVariable_eq (identifier : Option String) :
    namedVariable identifier =
      if identifier = some Variable.windowScrollY.name then some .windowScrollY else none := by
  split
  next h =>
    rw [h]
    rfl
  next h =>
    rcases identifier with _ | name
    · rfl
    · change Variable.ofName? name = none
      unfold Variable.ofName?
      split
      next => exact absurd rfl h
      next => rfl

/-- Sampling takes the snapshot and touches nothing else of the host. -/
theorem sample_eq (identifier : Option String) (host : Host σ) :
    sample identifier host =
      ((snapshot identifier host.source).1,
        { host with source := (snapshot identifier host.source).2 }) := by
  by_cases h : identifier = some Variable.windowScrollY.name
  · simp only [sample, snapshot, namedVariable_eq, if_pos h]
    rfl
  · simp only [sample, snapshot, namedVariable_eq, if_neg h]

omit [ScrollSource σ] in
theorem degrade_value (policy : DivisionPolicy) (symbol : String) (left right : Quantity)
    (host : Host σ) :
    (degrade policy symbol left right host).1 = .combineOrZero policy symbol left right := by
  unfold degrade Quantity.combineOrZero
  cases Quantity.combine policy symbol left right <;> rfl

omit [ScrollSource σ] in
theorem degrade_source (policy : DivisionPolicy) (symbol : String) (left right : Quantity)
    (host : Host σ) : (degrade policy symbol left right host).2.source = host.source := by
  unfold degrade
  split <;> rfl

section Equations
variable (symbol : String) (left right inner : Node) (policy : DivisionPolicy)
  (error : BuildError) {memo : Memo Quantity} {value : Quantity} (host : Host σ)

theorem evaluate_operator_of_remembered (h : memo.remembered = some value) :
    (operator symbol left right policy memo).evaluate host =
      ⟨value, operator symbol left right policy memo, host.note .cacheHit⟩ := by
  rw [evaluate, h]

theorem evaluate_calculation_of_remembered (h : memo.remembered = some value) :
    (calculation inner memo).evaluate host =
      ⟨value, calculation inner memo, host.note .cacheHit⟩ := by
  rw [evaluate, h]

theorem evaluate_broken_of_remembered (h : memo.remembered = some value) :
    (broken error memo).evaluate host = ⟨value, broken error memo, host.note .cacheHit⟩ := by
  rw [evaluate, h]

theorem evaluate_operator_of_forgotten (h : memo.remembered = none) :
    (operator symbol left right policy memo).evaluate host =
      let l := left.evaluate host
      let r := right.evaluate l.host
      let result := degrade policy symbol l.value r.value r.host
      ⟨result.1, operator symbol l.next r.next policy (memo.keep result.1), result.2⟩ := by
  rw [evaluate, h]

theorem evaluate_calculation_of_forgotten (h : memo.remembered = none) :
    (calculation inner memo).evaluate host =
      let i := inner.evaluate host
      ⟨i.value, calculation i.next (memo.keep i.value), i.host⟩ := by
  rw [evaluate, h]

theorem evaluate_broken_of_forgotten (h : memo.remembered = none) :
    (broken error memo).evaluate host = ⟨.zero, broken error (memo.keep .zero), host⟩ := by
  rw [evaluate, h]

end Equations

/-- Only what is remembered changes. -/
@[simp] theorem forget_evaluate (node : Node) (host : Host σ) :
    (node.evaluate host).next.forget = node.forget := by
  induction node generalizing host with
  | literal quantity => rfl
  | environment identifier => rfl
  | operator symbol left right policy memo ihl ihr =>
    cases h : memo.remembered with
    | some value => rw [evaluate_operator_of_remembered _ _ _ _ _ h]
    | none =>
      rw [evaluate_operator_of_forgotten _ _ _ _ _ h]
      simp only [forget, ihl, ihr, Memo.keep_constant]
  | calculation inner memo ih =>
    cases h : memo.remembered with
    | some value => rw [evaluate_calculation_of_remembered _ _ h]
    | none =>
      rw [evaluate_calculation_of_forgotten _ _ h]
      simp only [forget, ih, Memo.keep_constant]
  | broken error memo =>
    cases h : memo.remembered with
    | some value => rw [evaluate_broken_of_remembered _ _ h]
    | none =>
      rw [evaluate_broken_of_forgotten _ _ h]
      simp only [forget, Memo.keep_constant]

theorem fixed?_congr {a b : Node} (h : a.forget = b.forget) : a.fixed? = b.fixed? := by
  rw [← fixed?_forget a, h, fixed?_forget]

theorem fixed?_operator_congr {symbol : String} {left left' right right' : Node}
    {policy : DivisionPolicy} {memo' : Memo Quantity} (hl : left'.forget = left.forget)
    (hr : right'.forget = right.forget) (memo : Memo Quantity) :
    (operator symbol left' right' policy memo').fixed? =
      (operator symbol left right policy memo).fixed? := by
  rw [fixed?, fixed?, fixed?_congr hl, fixed?_congr hr]

theorem live_congr {a b : Node} (h : a.forget = b.forget) (source : σ) :
    a.live source = b.live source := by
  rw [← live_forget a, h, live_forget]

/-- What an evaluation of a coherent node amounts to. -/
structure Faithful (node : Node) (source : σ) (o : Outcome Node Quantity σ) : Prop where
  value_eq : o.value = (node.live source).1
  source_eq : o.host.source = (node.live source).2
  coherent : o.next.Coherent

theorem faithful_of_fixed? {node : Node} {value : Quantity} (h : node.Coherent)
    (hfixed : node.fixed? = some value) (host : Host σ) (event : Event) :
    Faithful node host.source ⟨value, node, host.note event⟩ := by
  have hlive := live_of_fixed? hfixed host.source
  constructor
  · rw [hlive]
  · rw [hlive]
    rfl
  · exact h

theorem fits_keep_live {node : Node} {memo : Memo Quantity} (h : memo.Fits node.fixed?)
    (source : σ) : (memo.keep (node.live source).1).Fits node.fixed? := by
  apply h.keep
  intro hconstant
  exact fixed?_of_isSome (h.constant_eq ▸ hconstant) source

/-- A coherent node evaluates to its live value and stays coherent. -/
theorem faithful_evaluate {node : Node} (h : node.Coherent) (host : Host σ) :
    Faithful node host.source (node.evaluate host) := by
  induction node generalizing host with
  | literal quantity => exact ⟨rfl, rfl, trivial⟩
  | environment identifier =>
    refine ⟨?_, ?_, trivial⟩
    · simp only [evaluate, sample_eq, live]
    · simp only [evaluate, sample_eq, live]
  | operator symbol left right policy memo ihl ihr =>
    cases hremembered : memo.remembered with
    | some value =>
      rw [evaluate_operator_of_remembered _ _ _ _ _ hremembered]
      exact faithful_of_fixed? h (h.2.2.remembered_eq hremembered) host _
    | none =>
      obtain ⟨hleft, hright, hmemo⟩ := h
      rw [evaluate_operator_of_forgotten _ _ _ _ _ hremembered]
      have hl := ihl hleft host
      have hr := ihr hright (left.evaluate host).host
      have hvalue : (degrade policy symbol (left.evaluate host).value
          (right.evaluate (left.evaluate host).host).value
          (right.evaluate (left.evaluate host).host).host).1 =
            ((operator symbol left right policy memo).live host.source).1 := by
        rw [degrade_value, hl.value_eq, hr.value_eq, hl.source_eq]
        rfl
      refine ⟨hvalue, ?_, hl.coherent, hr.coherent, ?_⟩
      · rw [degrade_source, hr.source_eq, hl.source_eq]
        rfl
      · rw [hvalue,
          fixed?_operator_congr (forget_evaluate left host) (forget_evaluate right _) memo]
        exact fits_keep_live hmemo host.source
  | calculation inner memo ih =>
    cases hremembered : memo.remembered with
    | some value =>
      rw [evaluate_calculation_of_remembered _ _ hremembered]
      exact faithful_of_fixed? h (h.2.remembered_eq hremembered) host _
    | none =>
      obtain ⟨hinner, hmemo⟩ := h
      rw [evaluate_calculation_of_forgotten _ _ hremembered]
      have hi := ih hinner host
      refine ⟨hi.value_eq, hi.source_eq, hi.coherent, ?_⟩
      rw [fixed?_congr (forget_evaluate inner host), hi.value_eq]
      exact fits_keep_live hmemo host.source
  | broken error memo =>
    cases hremembered : memo.remembered with
    | some value =>
      rw [evaluate_broken_of_remembered _ _ hremembered]
      exact faithful_of_fixed? h (Memo.Fits.remembered_eq h hremembered) host _
    | none =>
      rw [evaluate_broken_of_forgotten _ _ hremembered]
      exact ⟨rfl, rfl, Memo.Fits.keep h fun _ => rfl⟩

/-! ### Nodes within a tree -/

@[simp] theorem descend?_forget (path : List Step) (node : Node) :
    descend? path node.forget = (descend? path node).map forget := by
  induction path generalizing node with
  | nil => rfl
  | cons step path ih => cases step <;> cases node <;> simp [descend?, child?, forget, ih]

theorem Coherent.child {step : Step} {node child : Node} (h : node.Coherent)
    (hchild : node.child? step = some child) : child.Coherent := by
  cases node <;> cases step <;> cases hchild
  case calculation.inner => exact h.1
  case operator.left => exact h.1
  case operator.right => exact h.2.1

theorem Coherent.descend {path : List Step} {node below : Node} (h : node.Coherent)
    (hpath : descend? path node = some below) : below.Coherent := by
  induction path generalizing node with
  | nil =>
    cases hpath
    exact h
  | cons step path ih =>
    obtain ⟨child, hchild, hpath⟩ := Option.bind_eq_some_iff.mp hpath
    exact ih (h.child hchild) hpath

@[simp] theorem forget_evaluateAt (path : List Step) (node : Node) (host : Host σ) :
    (evaluateAt path node host).next.forget = node.forget := by
  induction path generalizing node with
  | nil => exact forget_evaluate node host
  | cons step path ih => cases step <;> cases node <;> simp [evaluateAt, forget, ih]

theorem evaluateAt_host (path : List Step) (node : Node) (host : Host σ) :
    (evaluateAt path node host).host =
      (descend? path node).elim host fun below => (below.evaluate host).host := by
  induction path generalizing node with
  | nil => rfl
  | cons step path ih => cases step <;> cases node <;> simp [evaluateAt, descend?, child?, ih]

theorem coherent_evaluateAt {node : Node} (h : node.Coherent) (path : List Step)
    (host : Host σ) : (evaluateAt path node host).next.Coherent := by
  induction path generalizing node with
  | nil => exact (faithful_evaluate h host).coherent
  | cons step path ih =>
    cases node with
    | operator symbol left right policy memo =>
      obtain ⟨hleft, hright, hmemo⟩ := h
      cases step with
      | inner => exact ⟨hleft, hright, hmemo⟩
      | left =>
        refine ⟨ih hleft, hright, ?_⟩
        rw [fixed?_operator_congr (forget_evaluateAt path left host) rfl memo]
        exact hmemo
      | right =>
        refine ⟨hleft, ih hright, ?_⟩
        rw [fixed?_operator_congr rfl (forget_evaluateAt path right host) memo]
        exact hmemo
    | calculation inner memo =>
      obtain ⟨hinner, hmemo⟩ := h
      cases step with
      | inner =>
        refine ⟨ih hinner, ?_⟩
        rw [fixed?_congr (forget_evaluateAt path inner host)]
        exact hmemo
      | _ => exact ⟨hinner, hmemo⟩
    | _ => cases step <;> exact h

def liveAt (path : List Step) (node : Node) (source : σ) : Option Quantity × σ :=
  match descend? path node with
  | some below => (some (below.live source).1, (below.live source).2)
  | none => (none, source)

theorem liveAt_congr {a b : Node} (h : a.forget = b.forget) (path : List Step) (source : σ) :
    liveAt path a source = liveAt path b source := by
  have hpath : (descend? path a).map forget = (descend? path b).map forget := by
    rw [← descend?_forget, h, descend?_forget]
  unfold liveAt
  cases ha : descend? path a with
  | none =>
    rw [ha, Option.map_none, eq_comm, Option.map_eq_none_iff] at hpath
    rw [hpath]
  | some below =>
    rw [ha, Option.map_some, eq_comm, Option.map_eq_some_iff] at hpath
    obtain ⟨other, hother, hforget⟩ := hpath
    rw [hother]
    simp only [live_congr hforget]

/-- Evaluating within a coherent tree gives the live value of the node. -/
theorem evaluateAt_eq_liveAt {node : Node} (h : node.Coherent) (path : List Step)
    (host : Host σ) :
    ((evaluateAt path node host).value, (evaluateAt path node host).host.source) =
      liveAt path node host.source := by
  rw [evaluateAt_value, evaluateAt_host, liveAt]
  cases hpath : descend? path node with
  | none => rfl
  | some below =>
    have hbelow := faithful_evaluate (h.descend hpath) host
    simp only [Option.map_some, Option.elim, hbelow.value_eq, hbelow.source_eq]

end LiveStyle.Node
