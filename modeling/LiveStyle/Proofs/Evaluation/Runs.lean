import LiveStyle.Proofs.Evaluation.Memory

/-! # Runs of evaluations

A tree is built, put under operators, and evaluated, as a whole or at any node within it,
while the source changes as it likes.  The answers of every such run are those of the same
run without memory.
-/
namespace LiveStyle.Node

/-- The trees that building, joining and evaluating can produce, under any policies and over
any sources. -/
inductive Reached : Node → Prop
  | term (policy : DivisionPolicy) (term : Term) (log : Log) : Reached (ofTerm policy term log).1
  | calculation (policy : DivisionPolicy) (name : String) (arguments : List (List Term))
      (log : Log) : Reached (ofCalculation policy name arguments log).1
  | environment (arguments : List (List Term)) (log : Log) :
      Reached (ofEnvironment arguments log).1
  | join (policy : DivisionPolicy) (symbol : String) {left right : Node} :
      Reached left → Reached right → Reached (join policy symbol left right)
  | evaluated {τ : Type} [ScrollSource τ] (path : List Step) (host : Host τ) {node : Node} :
      Reached node → Reached (evaluateAt path node host).next

/-- Memory is in order in every tree that can be reached. -/
theorem Reached.coherent {node : Node} (h : Reached node) : node.Coherent := by
  induction h with
  | term policy term log =>
    rw [ofTerm_fst]
    exact coherent_leaf policy term
  | calculation policy name arguments log => exact coherent_ofCalculation policy name arguments log
  | environment arguments log => trivial
  | join policy symbol _ _ hl hr => exact coherent_join policy symbol hl hr
  | evaluated path host _ h => exact coherent_evaluateAt h path host

/-- What a tree can become: evaluated at any nodes, any number of times, over any sources. -/
inductive Later (first : Node) : Node → Prop
  | now : Later first first
  | evaluated {τ : Type} [ScrollSource τ] (path : List Step) (host : Host τ) {node : Node} :
      Later first node → Later first (evaluateAt path node host).next

theorem Later.forget_eq {first node : Node} (h : Later first node) :
    node.forget = first.forget := by
  induction h with
  | now => rfl
  | evaluated path host _ ih => rw [forget_evaluateAt, ih]

theorem Later.coherent {first node : Node} (h : Later first node) (hfirst : first.Coherent) :
    node.Coherent := by
  induction h with
  | now => exact hfirst
  | evaluated path host _ ih => exact coherent_evaluateAt ih path host

variable {σ : Type} [ScrollSource σ]

/-- What can happen to a tree and to the source that it reads. -/
inductive Move (σ : Type) where
  | evaluate (path : List Step)
  | change (f : σ → σ)

/-- Carry out moves one after the other.  Each evaluation answers with its value and with the
source as it leaves it. -/
def run : List (Move σ) → Node → Host σ → Outcome Node (List (Option Quantity × σ)) σ
  | [], node, host => ⟨[], node, host⟩
  | .evaluate path :: moves, node, host =>
    let o := evaluateAt path node host
    let rest := run moves o.next o.host
    ⟨(o.value, o.host.source) :: rest.value, rest.next, rest.host⟩
  | .change f :: moves, node, host => run moves node { host with source := f host.source }

/-- The answers to the same moves when every value is computed afresh. -/
def liveRun : List (Move σ) → Node → σ → List (Option Quantity × σ)
  | [], _, _ => []
  | .evaluate path :: moves, node, source =>
    liveAt path node source :: liveRun moves node (liveAt path node source).2
  | .change f :: moves, node, source => liveRun moves node (f source)

theorem forget_run (moves : List (Move σ)) (node : Node) (host : Host σ) :
    (run moves node host).next.forget = node.forget := by
  induction moves generalizing node host with
  | nil => rfl
  | cons move moves ih =>
    cases move with
    | evaluate path =>
      rw [run, ih]
      exact forget_evaluateAt path node host
    | change f => exact ih node _

theorem coherent_run {node : Node} (h : node.Coherent) (moves : List (Move σ)) (host : Host σ) :
    (run moves node host).next.Coherent := by
  induction moves generalizing node host with
  | nil => exact h
  | cons move moves ih =>
    cases move with
    | evaluate path => exact ih (coherent_evaluateAt h path host) _
    | change f => exact ih h _

theorem liveRun_congr {a b : Node} (h : a.forget = b.forget) (moves : List (Move σ))
    (source : σ) : liveRun moves a source = liveRun moves b source := by
  induction moves generalizing source with
  | nil => rfl
  | cons move moves ih =>
    cases move with
    | evaluate path => rw [liveRun, liveRun, liveAt_congr h, ih]
    | change f => exact ih (f source)

theorem Coherent.run_value {node : Node} (h : node.Coherent) (moves : List (Move σ))
    (host : Host σ) : (Node.run moves node host).value = liveRun moves node host.source := by
  induction moves generalizing node host with
  | nil => rfl
  | cons move moves ih =>
    cases move with
    | evaluate path =>
      have hanswer := evaluateAt_eq_liveAt h path host
      have hrest := ih (coherent_evaluateAt h path host) (evaluateAt path node host).host
      rw [liveRun_congr (forget_evaluateAt path node host)] at hrest
      rw [Node.run, liveRun, hrest, ← hanswer]
    | change f => exact ih h _

/-- Memory never shows: every evaluation in a run, of whatever node and after whatever changes of
the source, answers and moves the source as the computation without memory does.  Hence an old
tree answers as it would have before its earlier evaluations. -/
theorem run_eq_liveRun {node : Node} (h : Reached node) (earlier moves : List (Move σ))
    (before host : Host σ) :
    (run moves node host).value = liveRun moves node host.source ∧
      (run moves (run earlier node before).next host).value = (run moves node host).value := by
  have hanswers := h.coherent.run_value moves host
  have hold : (run earlier node before).next.Coherent := coherent_run h.coherent earlier before
  refine ⟨hanswers, ?_⟩
  calc (run moves (run earlier node before).next host).value
      = liveRun moves (run earlier node before).next host.source := hold.run_value moves host
    _ = liveRun moves node host.source := liveRun_congr (forget_run earlier node before) moves _
    _ = (run moves node host).value := hanswers.symm

/-- A length that has been computed before, divided by the scroll progress. -/
theorem run_eq_liveRun_join :
    let length := (ofCalculation .ieee "calc"
      [[.number ⟨1, some .metre⟩, .operator "+", .number ⟨50, some .centimetre⟩]] #[]).1
    let computed := (evaluateAt [] length ⟨Recording.start ⟨0, 0, 0⟩, #[]⟩).next
    let progress := (ofEnvironment [[.identifier "window-scroll-y"]] #[]).1
    let node := join .zero "/" computed progress
    let earlier : List (Move Recording) := [.evaluate []]
    let moves : List (Move Recording) :=
      [.evaluate [], .change fun source => source.set ⟨100, 500, 100⟩, .evaluate [.left],
        .evaluate []]
    let host : Host Recording := ⟨Recording.start ⟨50, 500, 100⟩, #[]⟩
    Reached node ∧ (run moves node host).value = liveRun moves node host.source ∧
      (run moves (run earlier node host).next host).value = (run moves node host).value := by
  intro length computed progress node earlier moves host
  have hnode : Reached node :=
    .join .zero "/" (.evaluated [] _ (.calculation .ieee "calc" _ #[])) (.environment _ #[])
  exact ⟨hnode, run_eq_liveRun hnode earlier moves host host⟩

end LiveStyle.Node
