import LiveStyle.Proofs.Evaluation.Journal
import LiveStyle.Proofs.Spherical.Computation

/-! # What spherical values report

A spherical value reports what its components do, the radius first and then the two angles, unless
it remembers: then it is a cache hit and they are not visited.  So the journal of a component is
that of a tree, and nothing that holds of trees is lost.
-/
namespace LiveStyle

def RadiusTerm.reports {σ : Type} [ScrollSource σ] : RadiusTerm → Host σ → Node.Journal
  | keyword _, _ => []
  | length node, host => node.reports host

namespace Spherical
open Node (Step)

deriving instance DecidableEq for Component

inductive Place where
  | whole
  | part (component : Component) (path : List Step)

abbrev Journal := List (Report Place)

def within (component : Component) (journal : Node.Journal) : Journal :=
  journal.map fun report => ⟨.part component report.place, report.event⟩

def part (component : Component) (journal : Journal) : Node.Journal :=
  journal.filterMap fun report =>
    match report.place with
    | .whole => none
    | .part found path => if found = component then some ⟨path, report.event⟩ else none

section Journal
variable (component : Component) (journal journal' : Journal)

@[simp] theorem events_within (reports : Node.Journal) :
    events (within component reports) = events reports := by
  simp [events, within]

@[simp] theorem part_append :
    part component (journal ++ journal') = part component journal ++ part component journal' :=
  List.filterMap_append

@[simp] theorem part_within (found : Component) (reports : Node.Journal) :
    part component (within found reports) = if found = component then reports else [] := by
  split
  next h => simp [part, within, h]
  next h => simp [part, within, h]

end Journal

section Reports
variable {σ : Type} [ScrollSource σ]

def reports (s : Spherical) (host : Host σ) : Journal :=
  match s.memo.remembered with
  | some _ => [⟨.whole, .cacheHit⟩]
  | none =>
    within .radius (s.radius.reports (s.hostAt host .radius)) ++
      within .azimuth (s.azimuth.reports (s.hostAt host .azimuth)) ++
      within .inclination (s.inclination.reports (s.hostAt host .inclination))

/-- An evaluation adds to the log the events that it reports. -/
theorem log_evaluate (s : Spherical) (host : Host σ) :
    (s.evaluate host).host.log = host.log ++ (events (s.reports host)).toArray := by
  have hradius : (s.radius.evaluate host).host.log =
      host.log ++ (events (s.radius.reports host)).toArray := by
    cases s.radius with
    | keyword name => simp [RadiusTerm.evaluate, RadiusTerm.reports, events]
    | length node => exact Node.log_evaluate node host
  rw [evaluate, reports]
  cases s.memo.remembered with
  | some value => simp [events]
  | none => simp [hostAt, Node.log_evaluate, hradius]

/-- From a component comes what its tree reports, unless the spherical value remembers. -/
theorem part_reports {s : Spherical} {component : Component} {node : Node}
    (hnode : s.component? component = some node) (host : Host σ) :
    part component (s.reports host) =
      if s.memo.remembered.isSome then [] else node.reports (s.hostAt host component) := by
  rw [reports]
  cases s.memo.remembered with
  | some value => rfl
  | none =>
    cases component with
    | azimuth =>
      cases hnode
      simp
    | inclination =>
      cases hnode
      simp
    | radius =>
      rw [RadiusTerm.length?_eq_some_iff.mp hnode]
      simp [RadiusTerm.reports]

end Reports

inductive Chronicled : Spherical → Journal → Prop
  | built (policy : DivisionPolicy) (expressions : List Expression) (log : Log) :
      Chronicled (ofExpressions policy expressions log).1 []
  | evaluated {σ : Type} [ScrollSource σ] (host : Host σ) {s : Spherical} {journal : Journal} :
      Chronicled s journal → Chronicled (s.evaluate host).next (journal ++ s.reports host)

section Chronicled
variable {s : Spherical} {journal : Journal}

theorem Chronicled.exists_tallied (h : Chronicled s journal) : ∃ tally, s.Tallied tally := by
  induction h with
  | built policy expressions log => exact ⟨_, .built policy expressions log⟩
  | evaluated host _ ih =>
    obtain ⟨tally, ih⟩ := ih
    exact ⟨_, .evaluated host ih⟩

theorem Later.exists_chronicled {policy : DivisionPolicy} {expressions : List Expression}
    {log : Log} (h : (ofExpressions policy expressions log).1.Later s) :
    ∃ journal, s.Chronicled journal := by
  induction h with
  | now => exact ⟨_, .built policy expressions log⟩
  | evaluated host _ ih =>
    obtain ⟨journal, ih⟩ := ih
    exact ⟨_, .evaluated host ih⟩

/-- The trees of the components have journals of their own, which the journal is made of. -/
theorem Chronicled.component (h : Chronicled s journal) {component : Component} {node : Node}
    (hnode : s.component? component = some node) : node.Chronicled (part component journal) := by
  induction h generalizing node with
  | built policy expressions log =>
    obtain ⟨term, rfl⟩ := component?_ofExpressions hnode
    rw [← Node.ofTerm_fst policy term #[]]
    exact .term policy term #[]
  | @evaluated σ _ host s journal _ ih =>
    rw [part_append]
    cases hremembered : s.memo.remembered with
    | some value =>
      rw [evaluate_of_remembered hremembered] at hnode
      rw [part_reports hnode, hremembered]
      simpa using ih hnode
    | none =>
      rw [component?_evaluate hremembered, Option.map_eq_some_iff] at hnode
      obtain ⟨before, hbefore, rfl⟩ := hnode
      rw [part_reports hbefore, hremembered]
      have hnext := (ih hbefore).evaluated [] (s.hostAt host component)
      rw [Node.reportsAt_nil] at hnext
      exact hnext

variable {component : Component} {node below : Node} {path : List Step} {σ : Type}
  [ScrollSource σ]

theorem Chronicled.degradationsAt_changing (h : Chronicled s journal)
    (hnode : s.component? component = some node) (hpath : node.descend? path = some below)
    (hcompound : below.isCompound = true) (hchanging : below.isConstant = false)
    (host : Host σ) :
    Node.degradationsAt path (part component (s.reports host)) =
      (below.degradation? (Node.arrival path node (s.hostAt host component))).toList := by
  obtain ⟨tally, htallied⟩ := h.exists_tallied
  have hcoherent := htallied.coherent.of_component? hnode
  have hs : s.isConstant = false := by
    cases hconstant : s.isConstant with
    | false => rfl
    | true =>
      have hbelow := hcoherent.isConstant_eq_false ⟨path, hpath⟩ hchanging
      cases hbelow.symm.trans (htallied.coherent.isConstant_component hconstant hnode)
  rw [part_reports hnode, Memo.remembered_of_changing hs]
  simpa using (h.component hnode).accounted.each [] path node below rfl hpath hcompound hchanging
    σ (s.hostAt host component)

theorem Chronicled.isSome_stored?_evaluate (h : Chronicled s journal)
    (hnode : s.component? component = some node) (hpath : node.descend? path = some below)
    (hcompound : below.isCompound = true) (hconstant : below.isConstant = true)
    (host : Host σ) :
    ∃ after next, (s.evaluate host).next.component? component = some after ∧
      after.descend? path = some next ∧ next.forget = below.forget ∧
      next.stored?.isSome = true := by
  cases hremembered : s.memo.remembered with
  | some value =>
    obtain ⟨tally, htallied⟩ := h.exists_tallied
    have hfilled := (htallied.settled.filled value (Memo.value_of_remembered hremembered)).2
    rw [evaluate_of_remembered hremembered]
    exact ⟨node, below, hnode, hpath, rfl,
      hfilled component node below hnode ⟨path, hpath⟩ hcompound⟩
  | none =>
    obtain ⟨next, hnext, hforget, hstored⟩ := (h.component hnode).accounted.first [] path node below
      rfl hpath hcompound hconstant σ (s.hostAt host component)
    refine ⟨_, next, ?_, hnext, hforget, hstored⟩
    rw [component?_evaluate hremembered, hnode]
    rfl

end Chronicled

structure Accounted (s : Spherical) (journal : Journal) : Prop where
  parts : ∀ component node, s.component? component = some node →
    node.Accounted (part component journal)
  first : ∀ component node path below, s.component? component = some node →
    node.descend? path = some below → below.isCompound = true → below.isConstant = true →
      ∀ (σ : Type) [ScrollSource σ] (host : Host σ), ∃ after next,
        (s.evaluate host).next.component? component = some after ∧
          after.descend? path = some next ∧ next.forget = below.forget ∧
          next.stored?.isSome = true
  each : ∀ component node path below, s.component? component = some node →
    node.descend? path = some below → below.isCompound = true → below.isConstant = false →
      ∀ (σ : Type) [ScrollSource σ] (host : Host σ),
        Node.degradationsAt path (part component (s.reports host)) =
          (below.degradation? (Node.arrival path node (s.hostAt host component))).toList
  complete : ∀ component node path below, s.component? component = some node →
    node.descend? path = some below → ∀ (σ : Type) [ScrollSource σ] (host : Host σ),
      ∀ d ∈ below.degradation? (Node.arrival path node (s.hostAt host component)),
        d ∈ Node.degradationsAt path (part component (journal ++ s.reports host))

theorem Chronicled.accounted {s : Spherical} {journal : Journal} (h : Chronicled s journal) :
    s.Accounted journal where
  parts _ _ hnode := (h.component hnode).accounted
  first _ _ _ _ hnode hpath hcompound hconstant _ _ host :=
    h.isSome_stored?_evaluate hnode hpath hcompound hconstant host
  each _ _ _ _ hnode hpath hcompound hchanging _ _ host :=
    h.degradationsAt_changing hnode hpath hcompound hchanging host
  complete component node path below hnode hpath σ _ host d hd := by
    have hcompound := Node.isCompound_of_mem_degradation? hd
    cases hconstant : below.isConstant with
    | false =>
      rw [part_append, Node.degradationsAt_append,
        h.degradationsAt_changing hnode hpath hcompound hconstant host]
      exact List.mem_append_right _ (Option.mem_toList.mpr hd)
    | true =>
      obtain ⟨after, next, hafter, hnext, hforget, hstored⟩ :=
        h.isSome_stored?_evaluate hnode hpath hcompound hconstant host
      have hchronicled := (h.evaluated host).component hafter
      exact hchronicled.mem_degradationsAt hnext hforget hstored
        ((h.component hnode).reached.coherent.descend hpath) hconstant hd

end Spherical

/-- Diagnostics of evaluations are exact.  What an evaluation adds to the log are the events of its
traversal, in order: from every place that is visited come those of the node there, and nothing
comes from anywhere else.  In every history of trees and spherical values, a constant operator that
faults is reported once, in the first evaluation that gets there, and one that can change in each
evaluation in which it faults.  So no operator is zero by a fault that has not been reported. -/
theorem diagnostics_exact :
    (∀ (σ : Type) [ScrollSource σ] (node : Node) (start : List Node.Step) (host : Host σ),
      (node.evaluate host).host.log = host.log ++ (events (node.reports host)).toArray ∧
        (node.evaluateAt start host).host.log =
          host.log ++ (events (node.reportsAt start host)).toArray) ∧
    (∀ (σ : Type) [ScrollSource σ] (s : Spherical) (host : Host σ),
      (s.evaluate host).host.log = host.log ++ (events (s.reports host)).toArray) ∧
    (∀ (σ : Type) [ScrollSource σ] (node first below : Node) (start rest : List Node.Step)
      (host : Host σ), node.descend? start = some first → first.descend? rest = some below →
        Node.eventsAt (start ++ rest) (node.reportsAt start host) =
          if first.visits rest then below.ownEvents (Node.arrival rest first host) else []) ∧
    (∀ (σ : Type) [ScrollSource σ] (node : Node) (start path : List Node.Step) (host : Host σ),
      ¬ start <+: path → Node.eventsAt path (node.reportsAt start host) = []) ∧
    (∀ (node : Node) (journal : Node.Journal), node.Chronicled journal →
      node.Accounted journal) ∧
    (∀ node : Node, node.Reached → ∃ journal, node.Chronicled journal) ∧
    (∀ (node left right : Node) (symbol : String) (policy : DivisionPolicy)
      (memo : Memo Quantity), node.Reached →
        node.Contains (.operator symbol left right policy memo) →
          ∀ (σ : Type) [ScrollSource σ] (host : Host σ),
            let below := Node.operator symbol left right policy memo
            ((below.degradation? host).isSome = true ∧ (below.evaluate host).value = .zero) ∨
              ((below.degradation? host).isSome = false ∧
                Quantity.combine policy symbol (left.evaluate host).value
                  (right.evaluate (left.evaluate host).host).value =
                    .ok (below.evaluate host).value)) ∧
    (∀ (s : Spherical) (journal : Spherical.Journal), s.Chronicled journal →
      s.Accounted journal) ∧
    (∀ (policy : DivisionPolicy) (expressions : List Expression) (log : Log) (s : Spherical),
      (Spherical.ofExpressions policy expressions log).1.Later s →
        ∃ journal, s.Chronicled journal) := by
  refine ⟨?_, fun σ _ => Spherical.log_evaluate, ?_, ?_, fun _ _ => Node.Chronicled.accounted,
    fun _ => Node.Reached.exists_chronicled, ?_, fun _ _ => Spherical.Chronicled.accounted, ?_⟩
  · exact fun σ _ node start host => ⟨node.log_evaluate host, node.log_evaluateAt start host⟩
  · intro σ _ node first below start rest host hstart hrest
    exact Node.eventsAt_reportsAt hstart hrest host
  · exact fun σ _ node start path host h => Node.eventsAt_reportsAt_outside h node host
  · rintro node left right symbol policy memo h ⟨path, hpath⟩ σ _ host
    exact (h.coherent.descend hpath).value_of_degradation? host
  · exact fun policy expressions log s => Spherical.Later.exists_chronicled

/-- A length and an angle added up, evaluated before the sum is joined to the scroll progress and
again after, and the same sum as a spherical azimuth. -/
theorem diagnostics_exact_mismatch :
    let mismatch : Degradation :=
      ⟨.unitMismatch .metre .radian, ⟨1, some .metre⟩, ⟨90, some .degree⟩⟩
    let sum := [.number ⟨1, some .metre⟩, .operator "+", .number ⟨90, some .degree⟩]
    let host : Host Recording := ⟨Recording.start ⟨50, 500, 100⟩, #[]⟩
    let computed := ((Node.ofCalculation .ieee "calc" [sum] #[]).1.evaluateAt [] host).next
    let node := Node.join .zero "*" computed
      (Node.ofEnvironment [[.identifier "window-scroll-y"]] #[]).1
    let now := (node.evaluateAt [] host).next
    let s := (Spherical.ofExpressions .zero [[.call "calc" [sum]]] #[]).1
    (∃ journal, now.Chronicled journal ∧ now.Accounted journal ∧
      Node.degradationsAt [.left, .inner] journal = [mismatch]) ∧
    Node.eventsAt [.left] (node.reportsAt [] host) = [.cacheHit] ∧
    Node.eventsAt [.left] (node.reportsAt [.right] host) = [] ∧
    (∃ journal, (s.evaluate host).next.Chronicled journal ∧
      (s.evaluate host).next.Accounted journal ∧
      Node.degradationsAt [.inner] (Spherical.part .azimuth journal) = [mismatch]) := by
  intro mismatch sum host computed node now s
  obtain ⟨-, -, hvisited, houtside, haccounted, -, -, hspherical, -⟩ := diagnostics_exact
  have hnow := (Node.Chronicled.join .zero "*"
    (.evaluated [] host (.calculation .ieee "calc" [sum] #[]))
    (.environment [[.identifier "window-scroll-y"]] #[])).evaluated [] host
  have hs := (Spherical.Chronicled.built .zero [[.call "calc" [sum]]] #[]).evaluated host
  refine ⟨⟨_, hnow, haccounted now _ hnow, ?_⟩, ?_, ?_, ⟨_, hs, hspherical _ _ hs, ?_⟩⟩
  · exact ((haccounted now _ hnow).once [.left, .inner] _ rfl rfl rfl Recording host).trans rfl
  · exact (hvisited Recording node node computed [] [.left] host rfl rfl).trans rfl
  · exact houtside Recording node [.right] [.left] host (by decide)
  · exact (((hspherical _ _ hs).parts .azimuth _ rfl).once [.inner] _ rfl rfl rfl
      Recording host).trans rfl

end LiveStyle
