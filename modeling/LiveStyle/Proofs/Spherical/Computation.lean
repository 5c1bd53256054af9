import LiveStyle.Proofs.Evaluation.History
import LiveStyle.Proofs.Spherical.Memory

/-! # How often spherical values compute

An evaluation of a spherical value runs one computation above its components, or answers from its
own memory and leaves them alone.  The components are trees that only this evaluation reaches, so
that what holds of trees passes to them.
-/
namespace LiveStyle

namespace RadiusTerm

def length? : RadiusTerm → Option Node
  | keyword _ => none
  | length node => some node

theorem length?_eq_some_iff {radius : RadiusTerm} {node : Node} :
    radius.length? = some node ↔ radius = length node := by
  cases radius <;> simp [length?]

/-- An evaluation with its tally; a keyword has nothing to compute. -/
def watch {σ : Type} [ScrollSource σ] :
    RadiusTerm → Host σ → Outcome RadiusTerm Radius σ × Node.Tally
  | keyword name, host => (⟨.keyword name, keyword name, host⟩, .zero)
  | length node, host =>
    let o := node.watch host
    (⟨.metres o.1.value.toBase.number, length o.1.next, o.1.host⟩, o.2)

@[simp] theorem watch_fst {σ : Type} [ScrollSource σ] (radius : RadiusTerm) (host : Host σ) :
    (radius.watch host).1 = radius.evaluate host := by
  cases radius with
  | keyword name => rfl
  | length node => simp only [watch, evaluate, Node.watch_fst]

end RadiusTerm

namespace Spherical
open Node (Step)

inductive Component where
  | azimuth
  | inclination
  | radius

def component? (s : Spherical) : Component → Option Node
  | .azimuth => some s.azimuth
  | .inclination => some s.inclination
  | .radius => s.radius.length?

structure Tally where
  own : Nat
  parts : Component → Node.Tally

namespace Tally

def zero : Tally := ⟨0, fun _ => .zero⟩

def add (tally work : Tally) : Tally :=
  ⟨tally.own + work.own, fun component place =>
    tally.parts component place + work.parts component place⟩

end Tally

section Watch
variable {σ : Type} [ScrollSource σ]

def watch (s : Spherical) (host : Host σ) : Outcome Spherical SphericalValue σ × Tally :=
  match s.memo.remembered with
  | some value => (⟨value, s, host.note .cacheHit⟩, .zero)
  | none =>
    let r := s.radius.watch host
    let a := s.azimuth.watch r.1.host
    let i := s.inclination.watch a.1.host
    let value := ⟨a.1.value.toBase.number, i.1.value.toBase.number, r.1.value⟩
    (⟨value, ⟨a.1.next, i.1.next, r.1.next, s.memo.keep value⟩, i.1.host⟩,
      ⟨1, fun
        | .azimuth => a.2
        | .inclination => i.2
        | .radius => r.2⟩)

@[simp] theorem watch_fst (s : Spherical) (host : Host σ) :
    (s.watch host).1 = s.evaluate host := by
  rw [watch, evaluate]
  cases s.memo.remembered with
  | some value => rfl
  | none => simp only [RadiusTerm.watch_fst, Node.watch_fst]

/-- The host in which an evaluation comes to a component. -/
def hostAt (s : Spherical) (host : Host σ) : Component → Host σ
  | .radius => host
  | .azimuth => (s.radius.evaluate host).host
  | .inclination => (s.azimuth.evaluate (s.radius.evaluate host).host).host

/-- A computation evaluates each component once. -/
theorem component?_evaluate {s : Spherical} (h : s.memo.remembered = none) (host : Host σ)
    (component : Component) :
    (s.evaluate host).next.component? component =
      (s.component? component).map fun node => (node.evaluate (s.hostAt host component)).next := by
  rw [evaluate_of_forgotten h]
  cases component with
  | radius =>
    cases hradius : s.radius with
    | keyword name => simp [component?, RadiusTerm.evaluate, RadiusTerm.length?, hradius]
    | length node => simp [component?, RadiusTerm.evaluate, RadiusTerm.length?, hostAt, hradius]
  | _ => rfl

theorem parts_watch {s : Spherical} (h : s.memo.remembered = none) (host : Host σ)
    {component : Component} {node : Node} (hnode : s.component? component = some node) :
    (s.watch host).2.parts component = (node.watch (s.hostAt host component)).2 := by
  rw [watch, h]
  cases component with
  | radius =>
    have hradius : s.radius = .length node := RadiusTerm.length?_eq_some_iff.mp hnode
    rw [hradius]
    rfl
  | azimuth =>
    cases hnode
    simp only [hostAt, RadiusTerm.watch_fst]
  | inclination =>
    cases hnode
    simp only [hostAt, RadiusTerm.watch_fst, Node.watch_fst]

theorem own_watch_of_forgotten {s : Spherical} (h : s.memo.remembered = none) (host : Host σ) :
    (s.watch host).2.own = 1 := by
  rw [watch, h]

theorem memo_evaluate_of_forgotten {s : Spherical} (h : s.memo.remembered = none)
    (host : Host σ) :
    (s.evaluate host).next.memo = s.memo.keep (s.evaluate host).value := by
  rw [evaluate_of_forgotten h]

theorem workedThroughout_component (s : Spherical) (host : Host σ) {component : Component}
    {node : Node} (hnode : s.component? component = some node) :
    ∃ next, (s.evaluate host).next.component? component = some next ∧
      next.forget = node.forget ∧
      node.WorkedThroughout next ((s.watch host).2.parts component) := by
  cases hremembered : s.memo.remembered with
  | some value =>
    rw [evaluate_of_remembered hremembered, watch, hremembered]
    exact ⟨node, hnode, rfl, Node.workedThroughout_rested node⟩
  | none =>
    have hwork := Node.workedThroughout_watch node (s.hostAt host component)
    rw [Node.watch_fst, ← parts_watch hremembered host hnode] at hwork
    refine ⟨_, ?_, Node.forget_evaluate node (s.hostAt host component), hwork⟩
    rw [component?_evaluate hremembered, hnode, Option.map_some]

end Watch

/-! ### Filling -/

structure FilledFromBelow (s : Spherical) : Prop where
  parts : ∀ component node, s.component? component = some node → node.FilledFromBelow
  own : s.memo.value.isSome = true →
    s.memo.constant = true ∧ ∀ component node, s.component? component = some node → node.Filled

section Filled
variable {s : Spherical} {component : Component} {node : Node}

theorem Coherent.of_component? (h : s.Coherent) (hnode : s.component? component = some node) :
    node.Coherent := by
  cases component with
  | azimuth =>
    cases hnode
    exact h.azimuth
  | inclination =>
    cases hnode
    exact h.inclination
  | radius =>
    have hradius := h.radius
    rwa [RadiusTerm.length?_eq_some_iff.mp hnode] at hradius

theorem Coherent.isConstant_component (h : s.Coherent) (hconstant : s.isConstant = true)
    (hnode : s.component? component = some node) : node.isConstant = true := by
  rw [h.isConstant_eq, isSome_fixed?, Bool.and_eq_true, Bool.and_eq_true] at hconstant
  rw [(h.of_component? hnode).isConstant_eq]
  cases component with
  | azimuth =>
    cases hnode
    exact hconstant.1.1
  | inclination =>
    cases hnode
    exact hconstant.1.2
  | radius =>
    have hradius := hconstant.2
    rwa [RadiusTerm.length?_eq_some_iff.mp hnode, RadiusTerm.fixed?, Option.isSome_map] at hradius

/-- Components are built from terms; what is missing is built like a zero. -/
theorem component?_ofExpressions {policy : DivisionPolicy} {expressions : List Expression}
    {log : Log} (hnode : (ofExpressions policy expressions log).1.component? component = some node) :
    ∃ term, node = Node.leaf policy term := by
  have hangle (term : Option Term) (log : Log) :
      ∃ t, (angle policy term log).1 = Node.leaf policy t := by
    cases term with
    | none => exact ⟨.number .zero, rfl⟩
    | some term => exact ⟨term, Node.ofTerm_fst policy term log⟩
  have hradius (term : Option Term) (log : Log)
      (hnode : (RadiusTerm.ofTerm? policy term log).1 = .length node) :
      ∃ t, node = Node.leaf policy t := by
    cases term with
    | none => cases hnode
    | some term =>
      rcases RadiusTerm.ofTerm?_cases policy term log with ⟨name, -, h⟩ | ⟨-, h⟩
      · cases h.symm.trans hnode
      · cases h.symm.trans hnode
        exact ⟨term, rfl⟩
  cases component with
  | radius => exact hradius _ _ (RadiusTerm.length?_eq_some_iff.mp hnode)
  | _ =>
    cases hnode
    exact hangle _ _

theorem FilledFromBelow.evaluate {σ : Type} [ScrollSource σ] (h : s.FilledFromBelow)
    (hcoherent : s.Coherent) (host : Host σ) : (s.evaluate host).next.FilledFromBelow := by
  cases hremembered : s.memo.remembered with
  | some value =>
    rw [evaluate_of_remembered hremembered]
    exact h
  | none =>
    constructor
    · intro component node hnode
      rw [component?_evaluate hremembered, Option.map_eq_some_iff] at hnode
      obtain ⟨before, hbefore, rfl⟩ := hnode
      exact (h.parts component before hbefore).evaluate (hcoherent.of_component? hbefore) _
    · intro hstored
      rw [memo_evaluate_of_forgotten hremembered] at hstored ⊢
      have hconstant := Memo.constant_of_isSome_value_keep (fun hvalue => (h.own hvalue).1) hstored
      refine ⟨(Memo.keep_constant _ _).trans hconstant, ?_⟩
      intro component node hnode
      rw [component?_evaluate hremembered, Option.map_eq_some_iff] at hnode
      obtain ⟨before, hbefore, rfl⟩ := hnode
      exact (h.parts component before hbefore).filled_evaluate (hcoherent.of_component? hbefore)
        (hcoherent.isConstant_component hconstant hbefore) _

end Filled

/-! ### Histories -/

inductive Tallied : Spherical → Tally → Prop
  | built (policy : DivisionPolicy) (expressions : List Expression) (log : Log) :
      Tallied (ofExpressions policy expressions log).1 .zero
  | evaluated {σ : Type} [ScrollSource σ] (host : Host σ) {s : Spherical} {tally : Tally} :
      Tallied s tally → Tallied (s.evaluate host).next (tally.add (s.watch host).2)

def due (s : Spherical) : Nat := if s.memo.value.isSome then 1 else 0

structure Balanced (s : Spherical) (tally : Tally) : Prop where
  own : s.isConstant = true → tally.own = s.due
  parts : ∀ component node, s.component? component = some node →
    node.Balanced (tally.parts component)

structure Settled (s : Spherical) (tally : Tally) : Prop where
  empty : s.isConstant = false → s.memo.value = none
  /-- A remembered value is the live one, from every source, and all components remember. -/
  filled : ∀ value, s.memo.value = some value →
    (∀ (σ : Type) [ScrollSource σ] (source : σ), s.live source = (value, source)) ∧
      ∀ component node lower, s.component? component = some node → node.Contains lower →
        lower.isCompound = true → lower.stored?.isSome = true
  once : s.isConstant = true → tally.own = s.due
  parts : ∀ component node, s.component? component = some node →
    node.Settled (tally.parts component)

structure KeptBy (before after : Spherical) : Prop where
  own : ∀ value, before.memo.value = some value → after.memo.value = some value
  parts : ∀ component node, before.component? component = some node →
    ∃ next, after.component? component = some next ∧ node.KeptBy next

section Settled
variable {s : Spherical} {tally : Tally}

theorem Tallied.coherent (h : Tallied s tally) : s.Coherent := by
  induction h with
  | built policy expressions log => exact coherent_ofExpressions policy expressions log
  | evaluated host _ ih => exact (faithful_evaluate ih host).coherent

theorem Tallied.filledFromBelow (h : Tallied s tally) : s.FilledFromBelow := by
  induction h with
  | built policy expressions log =>
    refine ⟨fun component node hnode => ?_, nofun⟩
    obtain ⟨term, rfl⟩ := component?_ofExpressions hnode
    exact Node.filledFromBelow_leaf policy term
  | evaluated host h ih => exact ih.evaluate h.coherent host

theorem Balanced.evaluate {σ : Type} [ScrollSource σ] (h : s.Balanced tally) (host : Host σ) :
    (s.evaluate host).next.Balanced (tally.add (s.watch host).2) := by
  constructor
  · intro hconstant
    cases hremembered : s.memo.remembered with
    | some value =>
      rw [evaluate_of_remembered hremembered] at hconstant ⊢
      rw [watch, hremembered]
      exact h.own hconstant
    | none =>
      have hmemo := memo_evaluate_of_forgotten hremembered host
      have hearlier : s.memo.constant = true := by
        rwa [isConstant, hmemo, Memo.keep_constant] at hconstant
      calc tally.own + (s.watch host).2.own
          = s.due + 1 := by rw [h.own hearlier, own_watch_of_forgotten hremembered]
        _ = 1 := by
          rw [due, ← Memo.remembered_of_constant hearlier, hremembered]
          rfl
        _ = (s.evaluate host).next.due := by
          rw [due, hmemo, if_pos (Memo.isSome_value_keep_of_constant hearlier _)]
  · intro component node hnode
    -- The component was there before the evaluation, which worked in it or left it alone.
    obtain ⟨before, hbefore⟩ : ∃ before, s.component? component = some before := by
      cases hremembered : s.memo.remembered with
      | some value =>
        rw [evaluate_of_remembered hremembered] at hnode
        exact ⟨node, hnode⟩
      | none =>
        rw [component?_evaluate hremembered, Option.map_eq_some_iff] at hnode
        exact hnode.imp fun before h => h.1
    obtain ⟨next, hnext, hforget, hwork⟩ := workedThroughout_component s host hbefore
    cases hnode.symm.trans hnext
    exact (h.parts component before hbefore).add hforget hwork

theorem Tallied.balanced (h : Tallied s tally) : s.Balanced tally := by
  induction h with
  | built policy expressions log =>
    refine ⟨fun _ => rfl, fun component node hnode => ?_⟩
    obtain ⟨term, rfl⟩ := component?_ofExpressions hnode
    exact Node.balanced_leaf policy term
  | evaluated host _ ih => exact ih.evaluate host

theorem Tallied.settled (h : Tallied s tally) : s.Settled tally := by
  have hfilled := h.filledFromBelow
  refine ⟨?_, ?_, h.balanced.own, ?_⟩
  · intro hchanging
    cases hvalue : s.memo.value with
    | none => rfl
    | some value =>
      cases hchanging.symm.trans (hfilled.own (Option.isSome_of_eq_some hvalue)).1
  · intro value hvalue
    refine ⟨fun σ _ source => live_of_fixed? (h.coherent.memo.value_eq value hvalue) source, ?_⟩
    intro component node lower hnode hlower hcompound
    have hnode := (hfilled.own (Option.isSome_of_eq_some hvalue)).2 component node hnode
    exact (hnode.of_contains hlower).isSome_stored? hcompound
  · intro component node hnode
    exact (h.coherent.of_component? hnode).settled (hfilled.parts component node hnode)
      (h.balanced.parts component node hnode)

end Settled

section Evaluated
variable {σ : Type} [ScrollSource σ] (s : Spherical) (host : Host σ)

/-- What is remembered stays so, in the spherical value and in its components. -/
theorem keptBy_evaluate : s.KeptBy (s.evaluate host).next := by
  constructor
  · intro value hvalue
    cases hremembered : s.memo.remembered with
    | some found =>
      rw [evaluate_of_remembered hremembered]
      exact hvalue
    | none =>
      rw [memo_evaluate_of_forgotten hremembered]
      exact Memo.value_keep_of_some hremembered hvalue _
  · intro component node hnode
    obtain ⟨next, hnext, -, hwork⟩ := workedThroughout_component s host hnode
    exact ⟨next, hnext, hwork.keptBy⟩

omit [ScrollSource σ] in
theorem Later.keptBy {first s : Spherical} (h : first.Later s) : first.KeptBy s := by
  induction h with
  | now => exact ⟨fun _ => id, fun component node hnode => ⟨node, hnode, fun _ _ => id⟩⟩
  | @evaluated τ _ host s _ ih =>
    have hkept := keptBy_evaluate s host
    refine ⟨fun value hvalue => hkept.own value (ih.own value hvalue), ?_⟩
    intro component node hnode
    obtain ⟨between, hbetween, hfirst⟩ := ih.parts component node hnode
    obtain ⟨next, hnext, hsecond⟩ := hkept.parts component between hbetween
    exact ⟨next, hnext, fun place value hstored => hsecond place value (hfirst place value hstored)⟩

theorem own_watch_changing {s : Spherical} (hchanging : s.isConstant = false) :
    (s.watch host).2.own = 1 :=
  own_watch_of_forgotten (Memo.remembered_of_changing hchanging) host

/-- A spherical value with a node that can change can change, so that its evaluations reach the
node. -/
theorem Coherent.parts_watch_changing {s : Spherical} (h : s.Coherent) {component : Component}
    {node below : Node} {path : List Step} (hnode : s.component? component = some node)
    (hpath : node.descend? path = some below) (hchanging : below.isConstant = false) :
    (s.watch host).2.parts component path = 1 := by
  have hcoherent := h.of_component? hnode
  cases hconstant : s.isConstant with
  | true =>
    have hbelow := hcoherent.isConstant_eq_false ⟨path, hpath⟩ hchanging
    cases hbelow.symm.trans (h.isConstant_component hconstant hnode)
  | false =>
    rw [parts_watch (Memo.remembered_of_changing hconstant) host hnode]
    exact hcoherent.watch_snd hpath hchanging _

end Evaluated
end Spherical

/-- Memory is filled once and for all.  In every history of trees and spherical values, what can
change remembers nothing and computes in every evaluation that reaches it; what is constant
computes once at most, remembers its live value from then on, and stands above what remembers.  An
evaluation fills memory and changes nothing else. -/
theorem memory_filled_once :
    (∀ (node : Node) (tally : Node.Tally), node.Tallied tally → node.Settled tally) ∧
    (∀ node : Node, node.Reached → ∃ tally, node.Tallied tally) ∧
    (∀ (σ : Type) [ScrollSource σ] (node : Node) (path : List Node.Step) (host : Host σ),
      (node.watchAt path host).1 = node.evaluateAt path host) ∧
    (∀ node now : Node, node.Later now → now.forget = node.forget ∧ node.KeptBy now) ∧
    (∀ (σ : Type) [ScrollSource σ] (node below : Node) (start path : List Node.Step)
      (host : Host σ), node.Reached → node.descend? path = some below →
        below.isConstant = false →
          (node.watchAt start host).2 path = if start <+: path then 1 else 0) ∧
    (∀ (s : Spherical) (tally : Spherical.Tally), s.Tallied tally → s.Settled tally) ∧
    (∀ (σ : Type) [ScrollSource σ] (s : Spherical) (host : Host σ),
      (s.watch host).1 = s.evaluate host) ∧
    (∀ s now : Spherical, s.Later now → now.forget = s.forget ∧ s.KeptBy now) ∧
    (∀ (σ : Type) [ScrollSource σ] (s : Spherical) (tally : Spherical.Tally) (host : Host σ),
      s.Tallied tally → (s.isConstant = false → (s.watch host).2.own = 1) ∧
        ∀ component node path below, s.component? component = some node →
          node.descend? path = some below → below.isConstant = false →
            (s.watch host).2.parts component path = 1) := by
  refine ⟨fun _ _ => Node.Tallied.settled, fun _ => Node.Reached.exists_tallied, ?_, ?_, ?_,
    fun _ _ => Spherical.Tallied.settled, ?_, ?_, ?_⟩
  · exact fun σ _ node path host => Node.watchAt_fst path node host
  · exact fun node now hnow => ⟨hnow.forget_eq, hnow.keptBy⟩
  · intro σ _ node below start path host hnode hpath hchanging
    exact hnode.coherent.watchAt_snd hpath hchanging start host
  · exact fun σ _ s host => Spherical.watch_fst s host
  · exact fun s now hnow => ⟨hnow.forget_eq, hnow.keptBy⟩
  · intro σ _ s tally host hs
    refine ⟨Spherical.own_watch_changing host, ?_⟩
    intro component node path below hnode hpath hchanging
    exact hs.coherent.parts_watch_changing host hnode hpath hchanging

/-- A length computed before it is joined to the scroll progress, and both as spherical angles. -/
theorem memory_filled_once_joined :
    let sum := [.number ⟨1, some .metre⟩, .operator "+", .number ⟨50, some .centimetre⟩]
    let argument := [[Term.identifier "window-scroll-y"]]
    let host : Host Recording := ⟨Recording.start ⟨50, 500, 100⟩, #[]⟩
    let length := (Node.ofCalculation .ieee "calc" [sum] #[]).1
    let node := Node.join .zero "/" (length.evaluateAt [] host).next
      (Node.ofEnvironment argument #[]).1
    let s := (Spherical.ofExpressions .zero [[.call "calc" [sum], .call "env" argument]] #[]).1
    (∃ tally, node.Tallied tally ∧ node.Settled tally ∧ tally [.left] = 1) ∧
      node.KeptBy (node.evaluateAt [.left] host).next ∧
      (node.watchAt [] host).2 [.right] = 1 ∧
      (∃ tally, s.Tallied tally ∧ s.Settled tally) ∧ s.KeptBy (s.evaluate host).next ∧
      (s.watch host).2.own = 1 := by
  intro sum argument host length node s
  obtain ⟨hsettled, -, -, hkept, hchanging, hspherical, -, hkept', hown⟩ := memory_filled_once
  have htallied := Node.Tallied.join .zero "/"
    (.evaluated [] host (.calculation .ieee "calc" [sum] #[])) (.environment argument #[])
  have hbuilt : s.Tallied .zero := .built .zero _ #[]
  refine ⟨⟨_, htallied, hsettled _ _ htallied, ?_⟩, ?_, ?_, ⟨_, hbuilt, hspherical _ _ hbuilt⟩,
    ?_, ?_⟩
  · exact (hsettled _ _ htallied).once [.left] _ rfl rfl
  · exact (hkept node _ (.evaluated [.left] host .now)).2
  · exact hchanging Recording node _ [] [.right] host htallied.reached rfl rfl
  · exact (hkept' s _ (.evaluated host .now)).2
  · exact (hown Recording s .zero host hbuilt).1 rfl

end LiveStyle
