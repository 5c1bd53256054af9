import LiveStyle.Proofs.Evaluation.Filling
import LiveStyle.Proofs.Scroll.Snapshots
import LiveStyle.Proofs.Tree.Matching

/-! # The places of an evaluation

An evaluation that starts at a node comes to every place of its tree in a state of the host of its
own: to a right operand, for one, after the left one has been evaluated.  What a node is worth in
the evaluation, and whether it faults, is what it is worth there.  How many snapshots come before a
place depends on the shape of the tree alone, so that trees that match are visited in step.
-/
namespace LiveStyle
open ScrollSource (skip nth)

/-- A fault with the two operand values that led to it. -/
structure Degradation where
  fault : Fault
  left : Quantity
  right : Quantity
  deriving DecidableEq

def Quantity.degradation? (policy : DivisionPolicy) (symbol : String) (left right : Quantity) :
    Option Degradation :=
  match combine policy symbol left right with
  | .ok _ => none
  | .error fault => some ⟨fault, left, right⟩

/-- Sources behave identically when they give the same snapshots, one after the other. -/
def ScrollSource.Alike {σ τ : Type} [ScrollSource σ] [ScrollSource τ] (source : σ) (other : τ) :
    Prop := ∀ n, nth n source = nth n other

namespace ScrollSource
variable {σ τ : Type} [ScrollSource σ] [ScrollSource τ] {source : σ} {other : τ}

theorem nth_skip (m n : Nat) (source : σ) : nth n (skip m source) = nth (m + n) source := by
  rw [nth, nth, skip_add]

theorem Alike.skip (h : Alike source other) (n : Nat) :
    Alike (ScrollSource.skip n source) (ScrollSource.skip n other) := by
  intro m
  rw [nth_skip, nth_skip]
  exact h (n + m)

end ScrollSource

namespace Node

section Snapshots
variable {σ : Type} [ScrollSource σ]

/-- How many snapshots the live value of a node takes. -/
def snapshots : Node → Nat
  | environment identifier => if identifier = some Variable.windowScrollY.name then 1 else 0
  | operator _ left right _ _ => left.snapshots + right.snapshots
  | calculation inner _ => inner.snapshots
  | _ => 0

theorem live_snd (node : Node) (source : σ) :
    (node.live source).2 = skip node.snapshots source := by
  induction node generalizing source with
  | environment identifier =>
    rw [live, snapshot, snapshots]
    split <;> rfl
  | operator symbol left right policy memo ihl ihr =>
    rw [live, snapshots, ScrollSource.skip_add, ← ihl]
    exact ihr _
  | calculation inner memo ih => exact ih source
  | _ => rfl

theorem Coherent.source_evaluate {node : Node} (h : node.Coherent) (host : Host σ) :
    (node.evaluate host).host.source = skip node.snapshots host.source := by
  rw [(faithful_evaluate h host).source_eq, live_snd]

/-- How many snapshots an evaluation of the node takes before it comes to a place. -/
def snapshotsBefore : List Step → Node → Nat
  | .inner :: path, calculation inner _ => snapshotsBefore path inner
  | .left :: path, operator _ left _ _ _ => snapshotsBefore path left
  | .right :: path, operator _ left right _ _ => left.snapshots + snapshotsBefore path right
  | _, _ => 0

variable {literals : Quantity → Quantity → Prop}
  {policies : DivisionPolicy → DivisionPolicy → Prop} {m n : Node}

theorem Matches.snapshots_eq (h : m.Matches literals policies n) : m.snapshots = n.snapshots := by
  induction h with
  | operator symbol _ _ _ _ ihl ihr => rw [snapshots, snapshots, ihl, ihr]
  | calculation _ _ ih => exact ih
  | _ => rfl

theorem Matches.snapshotsBefore_eq (h : m.Matches literals policies n) (path : List Step) :
    snapshotsBefore path m = snapshotsBefore path n := by
  induction h generalizing path with
  | operator symbol hleft _ _ _ ihl ihr =>
    rcases path with _ | ⟨_ | _ | _, path⟩
    · rfl
    · rfl
    · exact ihl path
    · rw [snapshotsBefore, snapshotsBefore, hleft.snapshots_eq, ihr]
  | calculation _ _ ih =>
    rcases path with _ | ⟨_ | _ | _, path⟩
    · rfl
    · exact ih path
    · rfl
    · rfl
  | _ => rcases path with _ | ⟨_ | _ | _, path⟩ <;> rfl

theorem eq_operator_of_forget {node left right : Node} {symbol : String} {policy : DivisionPolicy}
    {memo : Memo Quantity} (h : node.forget = (operator symbol left right policy memo).forget) :
    ∃ l r own, node = operator symbol l r policy own ∧ l.forget = left.forget ∧
      r.forget = right.forget ∧ own.constant = memo.constant := by
  cases node <;> simp only [forget, reduceCtorEq, operator.injEq] at h
  obtain ⟨rfl, hl, hr, rfl, hmemo⟩ := h
  exact ⟨_, _, _, rfl, hl, hr, (Memo.mk.inj hmemo).1⟩

theorem eq_calculation_of_forget {node inner : Node} {memo : Memo Quantity}
    (h : node.forget = (calculation inner memo).forget) :
    ∃ i own, node = calculation i own ∧ i.forget = inner.forget ∧
      own.constant = memo.constant := by
  cases node <;> simp only [forget, reduceCtorEq, calculation.injEq] at h
  exact ⟨_, _, rfl, h.1, (Memo.mk.inj h.2).1⟩

theorem eq_broken_of_forget {node : Node} {error : BuildError} {memo : Memo Quantity}
    (h : node.forget = (broken error memo).forget) :
    ∃ own, node = broken error own ∧ own.constant = memo.constant := by
  cases node <;> simp only [forget, reduceCtorEq, broken.injEq] at h
  obtain ⟨rfl, hmemo⟩ := h
  exact ⟨_, rfl, (Memo.mk.inj hmemo).1⟩

/-- What is remembered does not count. -/
theorem Matches.of_forget {m' n' : Node} (h : m.Matches literals policies n)
    (hm : m'.forget = m.forget) (hn : n'.forget = n.forget) :
    m'.Matches literals policies n' := by
  induction h generalizing m' n' with
  | literal hquantity =>
    cases m' <;> cases hm
    cases n' <;> cases hn
    exact .literal hquantity
  | environment identifier =>
    cases m' <;> cases hm
    cases n' <;> cases hn
    exact .environment identifier
  | operator symbol _ _ hpolicy hconstant ihl ihr =>
    obtain ⟨_, _, _, rfl, hml, hmr, hmemo⟩ := eq_operator_of_forget hm
    obtain ⟨_, _, _, rfl, hnl, hnr, hmemo'⟩ := eq_operator_of_forget hn
    exact .operator symbol (ihl hml hnl) (ihr hmr hnr) hpolicy
      (hmemo.trans (hconstant.trans hmemo'.symm))
  | calculation _ hconstant ih =>
    obtain ⟨_, _, rfl, hmi, hmemo⟩ := eq_calculation_of_forget hm
    obtain ⟨_, _, rfl, hni, hmemo'⟩ := eq_calculation_of_forget hn
    exact .calculation (ih hmi hni) (hmemo.trans (hconstant.trans hmemo'.symm))
  | broken error hconstant =>
    obtain ⟨_, rfl, hmemo⟩ := eq_broken_of_forget hm
    obtain ⟨_, rfl, hmemo'⟩ := eq_broken_of_forget hn
    exact .broken error (hmemo.trans (hconstant.trans hmemo'.symm))

theorem Matches.later {m' n' : Node} (h : m.Matches literals policies n) (hm : m.Later m')
    (hn : n.Later n') : m'.Matches literals policies n' :=
  h.of_forget hm.forget_eq hn.forget_eq

/-- What holds of any two coherent nodes that match holds at any time and wherever a path leads in
such trees, and each path leads somewhere in both or in neither. -/
theorem Matches.rel_descend {R : Node → Node → Prop} {m' n' : Node}
    (h : m.Matches literals policies n) (hm : m.Reached) (hn : n.Reached)
    (hrel : ∀ {a b : Node}, a.Matches literals policies b → a.Coherent → b.Coherent → R a b)
    (hnow : m.Later m') (hnow' : n.Later n') (path : List Step) :
    Option.Rel R (descend? path m') (descend? path n') := by
  have hplaces := (h.later hnow hnow').descend path
  have hcoherent := fun a (ha : descend? path m' = some a) =>
    (hnow.coherent hm.coherent).descend ha
  have hcoherent' := fun b (hb : descend? path n' = some b) =>
    (hnow'.coherent hn.coherent).descend hb
  generalize descend? path m' = place, descend? path n' = place' at hplaces hcoherent hcoherent'
  cases hplaces with
  | none => exact .none
  | some hmatches => exact .some (hrel hmatches (hcoherent _ rfl) (hcoherent' _ rfl))

end Snapshots

section Places
variable {σ : Type} [ScrollSource σ]

/-- The host in which an evaluation of the node comes to the place at the end of a path. -/
def arrival : List Step → Node → Host σ → Host σ
  | .inner :: path, calculation inner _, host => arrival path inner host
  | .left :: path, operator _ left _ _ _, host => arrival path left host
  | .right :: path, operator _ left right _ _, host =>
    arrival path right (left.evaluate host).host
  | _, _, host => host

/-- The fault of an operator whose operands are evaluated in the host, if they have no
combination. -/
def degradation? : Node → Host σ → Option Degradation
  | operator symbol left right policy _, host =>
    let l := left.evaluate host
    let r := right.evaluate l.host
    Quantity.degradation? policy symbol l.value r.value
  | _, _ => none

def fault? (node : Node) (host : Host σ) : Option Fault :=
  (node.degradation? host).map Degradation.fault

def valueAt? (path : List Step) (node : Node) (host : Host σ) : Option Quantity :=
  (descend? path node).map fun below => (below.evaluate (arrival path node host)).value

@[simp] theorem valueAt?_nil (node : Node) (host : Host σ) :
    valueAt? [] node host = some (node.evaluate host).value := rfl

theorem Coherent.source_arrival {node : Node} (h : node.Coherent) (path : List Step)
    (host : Host σ) :
    (arrival path node host).source = skip (snapshotsBefore path node) host.source := by
  fun_induction arrival path node host with
  | case1 path inner memo host ih => exact ih h.1
  | case2 path symbol left right policy memo host ih => exact ih h.1
  | case3 path symbol left right policy memo host ih =>
    rw [snapshotsBefore, ScrollSource.skip_add, ← h.1.source_evaluate host]
    exact ih h.2.1
  | case4 path node host hinner hleft hright =>
    rw [snapshotsBefore]
    · rfl
    · exact hinner
    · exact hleft
    · exact hright

/-- In a coherent tree an operator has the value of its operands, whether it computes it or
remembers it. -/
theorem Coherent.value_operator {symbol : String} {left right : Node} {policy : DivisionPolicy}
    {memo : Memo Quantity} (h : (operator symbol left right policy memo).Coherent)
    (host : Host σ) :
    ((operator symbol left right policy memo).evaluate host).value =
      .combineOrZero policy symbol (left.evaluate host).value
        (right.evaluate (left.evaluate host).host).value := by
  have hl := faithful_evaluate h.1 host
  have hr := faithful_evaluate h.2.1 (left.evaluate host).host
  rw [(faithful_evaluate h host).value_eq, hl.value_eq, hr.value_eq, hl.source_eq]
  rfl

theorem Coherent.value_calculation {inner : Node} {memo : Memo Quantity}
    (h : (calculation inner memo).Coherent) (host : Host σ) :
    ((calculation inner memo).evaluate host).value = (inner.evaluate host).value := by
  rw [(faithful_evaluate h host).value_eq, (faithful_evaluate h.1 host).value_eq]
  rfl

end Places
end Node
end LiveStyle
