import LiveStyle.Proofs.Evaluation.Filling

/-! # How often nodes compute

An evaluation is watched: beside its outcome it gives a tally of the computations that ran, place
by place.  At each place it does nothing, or it runs the computation there once.  A constant node
computes only when it remembers nothing, and remembers from then on; a node that can change
computes whenever an evaluation reaches it, since nothing above it remembers either.
-/
namespace LiveStyle.Node

/-- How often the node at each place of a tree has computed. -/
abbrev Tally := List Step → Nat

namespace Tally

def zero : Tally := fun _ => 0

def above (own : Nat) (below : Step → Tally) : Tally
  | [] => own
  | step :: path => below step path

def inside (inner : Tally) : Step → Tally
  | .inner => inner
  | _ => zero

def operands (left right : Tally) : Step → Tally
  | .left => left
  | .right => right
  | .inner => zero

end Tally

section Watch
variable {σ : Type} [ScrollSource σ]

/-- An evaluation with its tally.  A node that answers from memory computes nothing, and neither
does anything below it; a literal has nothing to compute. -/
def watch : Node → Host σ → Outcome Node Quantity σ × Tally
  | literal quantity, host => (⟨quantity, literal quantity, host⟩, .zero)
  | environment identifier, host =>
    let (value, host) := sample identifier host
    (⟨value, environment identifier, host⟩, .above 1 fun _ => .zero)
  | operator symbol left right policy memo, host =>
    match memo.remembered with
    | some value => (⟨value, operator symbol left right policy memo, host.note .cacheHit⟩, .zero)
    | none =>
      let l := left.watch host
      let r := right.watch l.1.host
      let (value, host) := degrade policy symbol l.1.value r.1.value r.1.host
      (⟨value, operator symbol l.1.next r.1.next policy (memo.keep value), host⟩,
        .above 1 (.operands l.2 r.2))
  | calculation inner memo, host =>
    match memo.remembered with
    | some value => (⟨value, calculation inner memo, host.note .cacheHit⟩, .zero)
    | none =>
      let i := inner.watch host
      (⟨i.1.value, calculation i.1.next (memo.keep i.1.value), i.1.host⟩,
        .above 1 (.inside i.2))
  | broken error memo, host =>
    match memo.remembered with
    | some value => (⟨value, broken error memo, host.note .cacheHit⟩, .zero)
    | none => (⟨.zero, broken error (memo.keep .zero), host⟩, .above 1 fun _ => .zero)

def watchAt : List Step → Node → Host σ → Outcome Node (Option Quantity) σ × Tally
  | [], node, host =>
    let o := node.watch host
    (⟨some o.1.value, o.1.next, o.1.host⟩, o.2)
  | .inner :: path, calculation inner memo, host =>
    let o := watchAt path inner host
    (⟨o.1.value, calculation o.1.next memo, o.1.host⟩, .above 0 (.inside o.2))
  | .left :: path, operator symbol left right policy memo, host =>
    let o := watchAt path left host
    (⟨o.1.value, operator symbol o.1.next right policy memo, o.1.host⟩,
      .above 0 (.operands o.2 .zero))
  | .right :: path, operator symbol left right policy memo, host =>
    let o := watchAt path right host
    (⟨o.1.value, operator symbol left o.1.next policy memo, o.1.host⟩,
      .above 0 (.operands .zero o.2))
  | _, node, host => (⟨none, node, host⟩, .zero)

/-- Watching changes nothing. -/
@[simp] theorem watch_fst (node : Node) (host : Host σ) :
    (node.watch host).1 = node.evaluate host := by
  induction node generalizing host with
  | operator symbol left right policy memo ihl ihr =>
    rw [watch, evaluate]
    cases memo.remembered with
    | some value => rfl
    | none => simp only [ihl, ihr]
  | calculation inner memo ih =>
    rw [watch, evaluate]
    cases memo.remembered with
    | some value => rfl
    | none => simp only [ih]
  | broken error memo =>
    rw [watch, evaluate]
    cases memo.remembered <;> rfl
  | _ => rfl

@[simp] theorem watchAt_fst (path : List Step) (node : Node) (host : Host σ) :
    (watchAt path node host).1 = evaluateAt path node host := by
  induction path generalizing node with
  | nil => simp only [watchAt, evaluateAt, watch_fst]
  | cons step path ih => cases step <;> cases node <;> simp only [watchAt, evaluateAt, ih]

end Watch

/-! ### One evaluation, place by place -/

/-- What an evaluation can do at one node: nothing, or one computation, which a constant node runs
only when it remembers nothing and which it then remembers. -/
inductive Worked (before after : Node) : Nat → Prop
  | rested : after.stored? = before.stored? → Worked before after 0
  | computed (value : Quantity) :
      (before.isConstant = true → before.stored? = none) →
      after.stored? = (if before.isConstant then some value else before.stored?) →
      Worked before after 1

/-- At every place of a tree, the same place afterwards and what was done there. -/
def WorkedThroughout (before after : Node) (tally : Tally) : Prop :=
  ∀ path node, descend? path before = some node →
    ∃ next, descend? path after = some next ∧ node.Worked next (tally path)

section Worked
variable {before after left right left' right' inner inner' : Node} {own : Nat}
  {tally leftTally rightTally : Tally} {memo memo' : Memo Quantity}

theorem workedThroughout_rested (node : Node) : node.WorkedThroughout node .zero :=
  fun _ next hpath => ⟨next, hpath, .rested rfl⟩

theorem workedThroughout_childless {below : Step → Tally} (h : before.Worked after own)
    (hchild : ∀ step, before.child? step = none) :
    before.WorkedThroughout after (.above own below) := by
  intro path node hpath
  cases path with
  | nil =>
    cases hpath
    exact ⟨after, rfl, h⟩
  | cons step path =>
    rw [descend?, hchild step] at hpath
    cases hpath

theorem workedThroughout_operator {symbol : String} {policy : DivisionPolicy}
    (h : (operator symbol left right policy memo).Worked
      (operator symbol left' right' policy memo') own)
    (hl : left.WorkedThroughout left' leftTally) (hr : right.WorkedThroughout right' rightTally) :
    (operator symbol left right policy memo).WorkedThroughout
      (operator symbol left' right' policy memo')
      (.above own (.operands leftTally rightTally)) := by
  intro path node hpath
  cases path with
  | nil =>
    cases hpath
    exact ⟨_, rfl, h⟩
  | cons step path =>
    cases step with
    | inner => cases hpath
    | left => exact hl path node hpath
    | right => exact hr path node hpath

theorem workedThroughout_calculation
    (h : (calculation inner memo).Worked (calculation inner' memo') own)
    (hi : inner.WorkedThroughout inner' tally) :
    (calculation inner memo).WorkedThroughout (calculation inner' memo')
      (.above own (.inside tally)) := by
  intro path node hpath
  cases path with
  | nil =>
    cases hpath
    exact ⟨_, rfl, h⟩
  | cons step path =>
    cases step with
    | inner => exact hi path node hpath
    | _ => cases hpath

theorem worked_keep {memo : Memo Quantity} (h : memo.remembered = none) (value : Quantity)
    (hbefore : before.stored? = memo.value) (hconstant : before.isConstant = memo.constant)
    (hafter : after.stored? = (memo.keep value).value) : before.Worked after 1 := by
  refine .computed value ?_ ?_
  · intro hflag
    rwa [hbefore, ← Memo.remembered_of_constant (hconstant ▸ hflag)]
  · rw [hafter, hbefore, hconstant, Memo.value_keep]

end Worked

section Places
variable {σ : Type} [ScrollSource σ]

theorem workedThroughout_watch (node : Node) (host : Host σ) :
    node.WorkedThroughout (node.watch host).1.next (node.watch host).2 := by
  fun_induction watch node host with
  | case2 identifier host value last _ =>
    -- An environment node has no memory, so that any value stands for the one it does not keep.
    exact workedThroughout_childless (.computed .zero nofun rfl) fun step => by cases step <;> rfl
  | case4 symbol left right policy memo host hremembered l r value last _ ihl ihr =>
    exact workedThroughout_operator (worked_keep hremembered value rfl rfl rfl) ihl ihr
  | case6 inner memo host hremembered i ih =>
    exact workedThroughout_calculation (worked_keep hremembered i.1.value rfl rfl rfl) ih
  | case8 error memo host hremembered =>
    exact workedThroughout_childless (worked_keep hremembered .zero rfl rfl rfl)
      fun step => by cases step <;> rfl
  | _ => exact workedThroughout_rested _

theorem workedThroughout_watchAt (path : List Step) (node : Node) (host : Host σ) :
    node.WorkedThroughout (watchAt path node host).1.next (watchAt path node host).2 := by
  fun_induction watchAt path node host with
  | case1 node host o => exact workedThroughout_watch node host
  | case2 path inner memo host o ih => exact workedThroughout_calculation (.rested rfl) ih
  | case3 path symbol left right policy memo host o ih =>
    exact workedThroughout_operator (.rested rfl) ih (workedThroughout_rested right)
  | case4 path symbol left right policy memo host o ih =>
    exact workedThroughout_operator (.rested rfl) (workedThroughout_rested left) ih
  | case5 => exact workedThroughout_rested _

end Places

/-! ### What follows for memory -/

def storedAt? (path : List Step) (node : Node) : Option Quantity :=
  (descend? path node).bind stored?

/-- Whatever is remembered before is remembered after, at the same place and with the same value. -/
def KeptBy (before after : Node) : Prop :=
  ∀ path value, storedAt? path before = some value → storedAt? path after = some value

/-- How often a constant node has computed: once if it remembers. -/
def due (node : Node) : Nat := if node.stored?.isSome then 1 else 0

section Consequences
variable {before after : Node} {own : Nat} {tally : Tally}

theorem Worked.stored?_eq (h : before.Worked after own) {value : Quantity}
    (hstored : before.stored? = some value) : after.stored? = some value := by
  cases h with
  | rested hafter => rwa [hafter]
  | computed found hempty hafter =>
    rw [hafter]
    split
    next hconstant => cases hstored.symm.trans (hempty hconstant)
    next => exact hstored

/-- A constant node computes when it goes from empty to filled. -/
theorem Worked.add_due (h : before.Worked after own) (hconstant : before.isConstant = true) :
    before.due + own = after.due := by
  cases h with
  | rested hafter => rw [due, due, hafter, Nat.add_zero]
  | computed value hempty hafter =>
    rw [if_pos hconstant] at hafter
    rw [due, due, hempty hconstant, hafter]
    rfl

theorem WorkedThroughout.keptBy (h : before.WorkedThroughout after tally) :
    before.KeptBy after := by
  intro path value hstored
  obtain ⟨node, hpath, hvalue⟩ := Option.bind_eq_some_iff.mp hstored
  obtain ⟨next, hnext, hworked⟩ := h path node hpath
  exact Option.bind_eq_some_iff.mpr ⟨next, hnext, hworked.stored?_eq hvalue⟩

end Consequences

/-! ### Nodes that can change -/

section Changing
variable {σ : Type} [ScrollSource σ] {node below : Node}

/-- What contains a node that can change can change. -/
theorem Coherent.isConstant_eq_false (h : node.Coherent) (hbelow : node.Contains below)
    (hchanging : below.isConstant = false) : node.isConstant = false := by
  cases hconstant : node.isConstant with
  | false => rfl
  | true =>
    have hbelow : below.Coherent ∧ below.isConstant = true := by
      refine hbelow.of_child (P := fun node => node.Coherent ∧ node.isConstant = true) ?_
        ⟨h, hconstant⟩
      rintro node step child ⟨h, hconstant⟩ hchild
      exact ⟨h.child hchild, h.isConstant_child hchild hconstant⟩
    cases hchanging.symm.trans hbelow.2

/-- Nothing above a node that can change remembers, so the node computes whenever the tree is
evaluated. -/
theorem Coherent.watch_snd (h : node.Coherent) {path : List Step}
    (hpath : descend? path node = some below) (hchanging : below.isConstant = false)
    (host : Host σ) : (node.watch host).2 path = 1 := by
  -- No node on the way down remembers, since each contains the one at its end.
  have hnode := h.isConstant_eq_false ⟨path, hpath⟩ hchanging
  induction path generalizing node host with
  | nil =>
    cases node with
    | literal quantity => cases hnode
    | environment identifier => rfl
    | operator symbol left right policy memo =>
      rw [watch, Memo.remembered_of_changing hnode]
      rfl
    | calculation inner memo =>
      rw [watch, Memo.remembered_of_changing hnode]
      rfl
    | broken error memo =>
      rw [watch, Memo.remembered_of_changing hnode]
      rfl
  | cons step path ih =>
    obtain ⟨child, hchild, hpath⟩ := Option.bind_eq_some_iff.mp hpath
    have hcoherent := h.child hchild
    have hbelow := hcoherent.isConstant_eq_false ⟨path, hpath⟩ hchanging
    cases node <;> cases step <;> cases hchild
    case cons.calculation.inner.refl =>
      rw [watch, Memo.remembered_of_changing hnode]
      exact ih hcoherent hpath host hbelow
    case cons.operator.left.refl =>
      rw [watch, Memo.remembered_of_changing hnode]
      exact ih hcoherent hpath host hbelow
    case cons.operator.right.refl =>
      rw [watch, Memo.remembered_of_changing hnode]
      exact ih hcoherent hpath _ hbelow

theorem watchAt_snd_append {start : List Step} {first : Node}
    (hstart : descend? start node = some first) (path : List Step) (host : Host σ) :
    (watchAt start node host).2 (start ++ path) = (first.watch host).2 path := by
  induction start generalizing node with
  | nil =>
    cases hstart
    rfl
  | cons step start ih =>
    obtain ⟨child, hchild, hstart⟩ := Option.bind_eq_some_iff.mp hstart
    cases node <;> cases step <;> cases hchild <;> exact ih hstart

/-- Only nodes within the one that is evaluated compute. -/
theorem watchAt_snd_outside {start path : List Step} (h : ¬ start <+: path) (node : Node)
    (host : Host σ) : (watchAt start node host).2 path = 0 := by
  induction start generalizing path node with
  | nil => exact absurd List.nil_prefix h
  | cons step start ih =>
    cases path with
    | nil => cases step <;> cases node <;> rfl
    | cons other path =>
      have hrest (heq : step = other) : ¬ start <+: path := by
        rintro hprefix
        exact h (List.cons_prefix_cons.mpr ⟨heq, hprefix⟩)
      cases step <;> cases node <;> cases other <;> first | rfl | exact ih (hrest rfl) _

/-- A node that can change computes in every evaluation that starts at it or above it. -/
theorem Coherent.watchAt_snd (h : node.Coherent) {path : List Step}
    (hpath : descend? path node = some below) (hchanging : below.isConstant = false)
    (start : List Step) (host : Host σ) :
    (watchAt start node host).2 path = if start <+: path then 1 else 0 := by
  split
  next hprefix =>
    obtain ⟨rest, rfl⟩ := hprefix
    rw [descend?_append] at hpath
    obtain ⟨first, hstart, hrest⟩ := Option.bind_eq_some_iff.mp hpath
    rw [watchAt_snd_append hstart]
    exact (h.descend hstart).watch_snd hrest hchanging host
  next hprefix => exact watchAt_snd_outside hprefix node host

end Changing

end LiveStyle.Node
