import LiveStyle.Proofs.Evaluation.History
import LiveStyle.Proofs.Evaluation.Places

/-! # What an evaluation reports

An evaluation logs the events of a traversal.  A node that remembers is a cache hit, and nothing
below it is visited.  Any other operator comes after its operands, from left to right, and is
reported if these have no combination; a calculation adds nothing of its own.  Events are taken
down together with the places that they come from.
-/
namespace LiveStyle

structure Report (π : Type) where
  place : π
  event : Event

def events {π : Type} (journal : List (Report π)) : List Event := journal.map Report.event

@[simp] theorem events_append {π : Type} (journal journal' : List (Report π)) :
    events (journal ++ journal') = events journal ++ events journal' :=
  List.map_append

def Degradation.event (d : Degradation) : Event := .degraded d.fault d.left d.right

def Event.degradation? : Event → Option Degradation
  | degraded fault left right => some ⟨fault, left, right⟩
  | _ => none

namespace Node

/-! ### Journals -/

abbrev Journal := List (Report (List Step))

def here (own : List Event) : Journal := own.map fun event => ⟨[], event⟩

/-- The reports of a node further down, with their places in the tree. -/
def beneath (start : List Step) (journal : Journal) : Journal :=
  journal.map fun report => ⟨start ++ report.place, report.event⟩

/-- The events that come from a place. -/
def eventsAt (path : List Step) (journal : Journal) : List Event :=
  events (journal.filter fun report => report.place = path)

def degradationsAt (path : List Step) (journal : Journal) : List Degradation :=
  (eventsAt path journal).filterMap Event.degradation?

section Journal
variable (start path : List Step) (journal journal' : Journal)

@[simp] theorem events_here (own : List Event) : events (here own) = own := by
  simp [events, here, Function.comp_def]

@[simp] theorem eventsAt_here (own : List Event) :
    eventsAt path (here own) = if path = [] then own else [] := by
  cases path <;> simp [eventsAt, events, here, List.filter_map, Function.comp_def]

@[simp] theorem events_beneath : events (beneath start journal) = events journal := by
  simp [events, beneath]

@[simp] theorem beneath_nil : beneath [] journal = journal := by
  simp [beneath]

@[simp] theorem eventsAt_nil : eventsAt path [] = [] := rfl

@[simp] theorem eventsAt_append :
    eventsAt path (journal ++ journal') = eventsAt path journal ++ eventsAt path journal' := by
  simp [eventsAt]

@[simp] theorem degradationsAt_append :
    degradationsAt path (journal ++ journal') =
      degradationsAt path journal ++ degradationsAt path journal' := by
  simp [degradationsAt]

@[simp] theorem eventsAt_beneath_append :
    eventsAt (start ++ path) (beneath start journal) = eventsAt path journal := by
  simp [eventsAt, events, beneath, List.filter_map, Function.comp_def]

theorem eventsAt_beneath_outside {start path : List Step} (h : ¬ start <+: path) :
    eventsAt path (beneath start journal) = [] := by
  have hplace (report : Report (List Step)) : start ++ report.place ≠ path := by
    rintro rfl
    exact h (List.prefix_append _ _)
  simp [eventsAt, events, beneath, hplace]

@[simp] theorem eventsAt_nil_beneath (step : Step) :
    eventsAt [] (beneath [step] journal) = [] :=
  eventsAt_beneath_outside _ (by simp)

@[simp] theorem eventsAt_cons_beneath (step other : Step) :
    eventsAt (step :: path) (beneath [other] journal) =
      if other = step then eventsAt path journal else [] := by
  split
  next h =>
    subst h
    exact eventsAt_beneath_append [other] path journal
  next h => exact eventsAt_beneath_outside _ (by simpa using h)

end Journal

/-! ### One evaluation -/

section Reports
variable {σ : Type} [ScrollSource σ]

/-- What an evaluation of the node reports. -/
def reports : Node → Host σ → Journal
  | operator symbol left right policy memo, host =>
    match memo.remembered with
    | some _ => here [.cacheHit]
    | none =>
      let l := left.evaluate host
      let r := right.evaluate l.host
      beneath [.left] (left.reports host) ++ beneath [.right] (right.reports l.host) ++
        here ((Quantity.degradation? policy symbol l.value r.value).toList.map Degradation.event)
  | calculation inner memo, host =>
    match memo.remembered with
    | some _ => here [.cacheHit]
    | none => beneath [.inner] (inner.reports host)
  | broken _ memo, _ =>
    match memo.remembered with
    | some _ => here [.cacheHit]
    | none => []
  | _, _ => []

def reportsAt (start : List Step) (node : Node) (host : Host σ) : Journal :=
  match descend? start node with
  | some first => beneath start (first.reports host)
  | none => []

@[simp] theorem reportsAt_nil (node : Node) (host : Host σ) :
    reportsAt [] node host = node.reports host :=
  beneath_nil _

omit [ScrollSource σ] in
theorem log_degrade (policy : DivisionPolicy) (symbol : String) (left right : Quantity)
    (host : Host σ) :
    (degrade policy symbol left right host).2.log =
      host.log ++ ((Quantity.degradation? policy symbol left right).toList.map
        Degradation.event).toArray := by
  unfold degrade Quantity.degradation?
  cases Quantity.combine policy symbol left right with
  | ok result => simp
  | error fault => simp [Degradation.event]

/-- An evaluation adds to the log the events that it reports. -/
theorem log_evaluate (node : Node) (host : Host σ) :
    (node.evaluate host).host.log = host.log ++ (events (node.reports host)).toArray := by
  induction node generalizing host with
  | literal quantity => simp [evaluate, reports, events]
  | environment identifier => simp [evaluate, reports, events, sample_eq]
  | operator symbol left right policy memo ihl ihr =>
    rw [evaluate, reports]
    cases memo.remembered with
    | some value => simp
    | none => simp [log_degrade, ihl, ihr]
  | calculation inner memo ih =>
    rw [evaluate, reports]
    cases memo.remembered with
    | some value => simp
    | none => simp [ih]
  | broken error memo =>
    rw [evaluate, reports]
    cases memo.remembered with
    | some value => simp
    | none => simp [events]

theorem log_evaluateAt (start : List Step) (node : Node) (host : Host σ) :
    (evaluateAt start node host).host.log =
      host.log ++ (events (reportsAt start node host)).toArray := by
  rw [evaluateAt_host, reportsAt]
  cases descend? start node with
  | none => simp [events]
  | some first => simpa using log_evaluate first host

end Reports

/-! ### Place by place -/

def remembers : Node → Bool
  | operator _ _ _ _ memo => memo.remembered.isSome
  | calculation _ memo => memo.remembered.isSome
  | broken _ memo => memo.remembered.isSome
  | _ => false

/-- Whether an evaluation of the node comes to the end of a path: nothing on the way remembers. -/
def visits : List Step → Node → Bool
  | [], _ => true
  | step :: path, node => !node.remembers && (node.child? step).any (visits path)

section Places
variable {σ : Type} [ScrollSource σ]

/-- What a node that is visited reports of itself. -/
def ownEvents (node : Node) (host : Host σ) : List Event :=
  if node.remembers then [.cacheHit] else (node.degradation? host).toList.map Degradation.event

theorem eventsAt_nil_reports (node : Node) (host : Host σ) :
    eventsAt [] (node.reports host) = node.ownEvents host := by
  cases node with
  | operator symbol left right policy memo =>
    rw [reports, ownEvents, remembers]
    cases memo.remembered <;> simp [degradation?]
  | calculation inner memo =>
    rw [reports, ownEvents, remembers]
    cases memo.remembered <;> simp [degradation?]
  | broken error memo =>
    rw [reports, ownEvents, remembers]
    cases memo.remembered <;> simp [degradation?]
  | _ => rfl

/-- From each place of the tree come the events of the node there, if it is visited. -/
theorem eventsAt_reports {path : List Step} {node below : Node}
    (hpath : descend? path node = some below) (host : Host σ) :
    eventsAt path (node.reports host) =
      if visits path node then below.ownEvents (arrival path node host) else [] := by
  induction path generalizing node host with
  | nil =>
    cases hpath
    exact eventsAt_nil_reports below host
  | cons step path ih =>
    obtain ⟨child, hchild, hpath⟩ := Option.bind_eq_some_iff.mp hpath
    cases node <;> cases step <;> cases hchild
    case cons.calculation.inner.refl memo =>
      rw [reports, visits, remembers, arrival]
      cases memo.remembered with
      | some value => simp
      | none => simp [ih hpath, child?]
    case cons.operator.left.refl symbol right policy memo =>
      rw [reports, visits, remembers, arrival]
      cases memo.remembered with
      | some value => simp
      | none => simp [ih hpath, child?]
    case cons.operator.right.refl symbol left policy memo =>
      rw [reports, visits, remembers, arrival]
      cases memo.remembered with
      | some value => simp
      | none => simp [ih hpath, child?]

/-- An evaluation within a tree reports what the node does in whose place it starts. -/
theorem eventsAt_reportsAt {start rest : List Step} {node first below : Node}
    (hstart : descend? start node = some first) (hrest : descend? rest first = some below)
    (host : Host σ) :
    eventsAt (start ++ rest) (reportsAt start node host) =
      if visits rest first then below.ownEvents (arrival rest first host) else [] := by
  rw [reportsAt, hstart]
  exact (eventsAt_beneath_append start rest _).trans (eventsAt_reports hrest host)

theorem eventsAt_reportsAt_outside {start path : List Step} (h : ¬ start <+: path) (node : Node)
    (host : Host σ) : eventsAt path (reportsAt start node host) = [] := by
  rw [reportsAt]
  cases descend? start node with
  | none => rfl
  | some first => exact eventsAt_beneath_outside _ h

theorem filterMap_degradation?_ownEvents (node : Node) (host : Host σ) :
    (node.ownEvents host).filterMap Event.degradation? =
      if node.remembers then [] else (node.degradation? host).toList := by
  rw [ownEvents]
  split
  · rfl
  · cases node.degradation? host <;> rfl

/-- A node with a memory computes when it is visited and does not remember. -/
theorem watch_snd_eq {path : List Step} {node below : Node}
    (hpath : descend? path node = some below) (hcompound : below.isCompound = true)
    (host : Host σ) :
    (node.watch host).2 path = if visits path node && !below.remembers then 1 else 0 := by
  induction path generalizing node host with
  | nil =>
    cases hpath
    cases below with
    | operator symbol left right policy memo =>
      rw [watch, visits, remembers]
      cases memo.remembered <;> rfl
    | calculation inner memo =>
      rw [watch, visits, remembers]
      cases memo.remembered <;> rfl
    | broken error memo =>
      rw [watch, visits, remembers]
      cases memo.remembered <;> rfl
    | _ => cases hcompound
  | cons step path ih =>
    obtain ⟨child, hchild, hpath⟩ := Option.bind_eq_some_iff.mp hpath
    cases node <;> cases step <;> cases hchild
    case cons.calculation.inner.refl memo =>
      rw [watch, visits, remembers]
      cases memo.remembered with
      | some value => rfl
      | none => exact ih hpath host
    case cons.operator.left.refl symbol right policy memo =>
      rw [watch, visits, remembers]
      cases memo.remembered with
      | some value => rfl
      | none => exact ih hpath host
    case cons.operator.right.refl symbol left policy memo =>
      rw [watch, visits, remembers]
      cases memo.remembered with
      | some value => rfl
      | none => exact ih hpath _

/-- An operator gives the combination of its operands, or zero if it has none and faults. -/
theorem Coherent.value_of_degradation? {symbol : String} {left right : Node}
    {policy : DivisionPolicy} {memo : Memo Quantity}
    (h : (operator symbol left right policy memo).Coherent) (host : Host σ) :
    let node := operator symbol left right policy memo
    ((node.degradation? host).isSome = true ∧ (node.evaluate host).value = .zero) ∨
      ((node.degradation? host).isSome = false ∧
        Quantity.combine policy symbol (left.evaluate host).value
          (right.evaluate (left.evaluate host).host).value = .ok (node.evaluate host).value) := by
  intro node
  rw [h.value_operator host, degradation?, Quantity.degradation?, Quantity.combineOrZero]
  cases Quantity.combine policy symbol (left.evaluate host).value
    (right.evaluate (left.evaluate host).host).value with
  | ok result => exact .inr ⟨rfl, rfl⟩
  | error fault => exact .inl ⟨rfl, rfl⟩

end Places

end Node
end LiveStyle
