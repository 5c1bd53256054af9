import LiveStyle.Evaluation.Host
import LiveStyle.Tree.Build

/-! # Evaluating trees

An operator evaluates its left operand, then its right one, then combines the two
values; a fault gives zero and is logged with both values.  Environment nodes sample
the source each time.  A constant node that has been computed gives its remembered
value and visits nothing below it.
-/
namespace LiveStyle.Node

variable {σ : Type} [ScrollSource σ]

/-- Combine two operand values, degrading a fault to zero. -/
def degrade (policy : DivisionPolicy) (symbol : String) (left right : Quantity) (host : Host σ) :
    Quantity × Host σ :=
  match Quantity.combine policy symbol left right with
  | .ok result => (result, host)
  | .error fault => (.zero, host.note (.degraded fault left right))

/-- Sample the named variable; what is not known is zero and reads nothing. -/
def sample (identifier : Option String) (host : Host σ) : Quantity × Host σ :=
  match namedVariable identifier with
  | some v => let (x, host) := host.reading v.read; (.unitless x, host)
  | none => (.zero, host)

def evaluate : Node → Host σ → Outcome Node Quantity σ
  | literal quantity, host => ⟨quantity, literal quantity, host⟩
  | environment identifier, host =>
    let (value, host) := sample identifier host
    ⟨value, environment identifier, host⟩
  | operator symbol left right policy memo, host =>
    match memo.remembered with
    | some value => ⟨value, operator symbol left right policy memo, host.note .cacheHit⟩
    | none =>
      let l := left.evaluate host
      let r := right.evaluate l.host
      let (value, host) := degrade policy symbol l.value r.value r.host
      ⟨value, operator symbol l.next r.next policy (memo.keep value), host⟩
  | calculation inner memo, host =>
    match memo.remembered with
    | some value => ⟨value, calculation inner memo, host.note .cacheHit⟩
    | none =>
      let i := inner.evaluate host
      ⟨i.value, calculation i.next (memo.keep i.value), i.host⟩
  | broken error memo, host =>
    match memo.remembered with
    | some value => ⟨value, broken error memo, host.note .cacheHit⟩
    | none => ⟨.zero, broken error (memo.keep .zero), host⟩

instance : Evaluator Node Quantity where
  isConstant := isConstant
  evaluate := evaluate

theorem isConstant_evaluate (node : Node) (host : Host σ) :
    (node.evaluate host).next.isConstant = node.isConstant := by
  cases node <;> simp only [evaluate] <;> (try split) <;> simp [isConstant]

def evaluateAt : List Step → Node → Host σ → Outcome Node (Option Quantity) σ
  | [], node, host =>
    let o := node.evaluate host
    ⟨some o.value, o.next, o.host⟩
  | .inner :: path, calculation inner memo, host =>
    let o := evaluateAt path inner host
    ⟨o.value, calculation o.next memo, o.host⟩
  | .left :: path, operator symbol left right policy memo, host =>
    let o := evaluateAt path left host
    ⟨o.value, operator symbol o.next right policy memo, o.host⟩
  | .right :: path, operator symbol left right policy memo, host =>
    let o := evaluateAt path right host
    ⟨o.value, operator symbol left o.next policy memo, o.host⟩
  | _, node, host => ⟨none, node, host⟩

/-- Evaluating within a tree gives the value of the node at the end of the path. -/
theorem evaluateAt_value (path : List Step) (node : Node) (host : Host σ) :
    (evaluateAt path node host).value =
      (descend? path node).map fun n => (n.evaluate host).value := by
  induction path generalizing node with
  | nil => rfl
  | cons step path ih => cases step <;> cases node <;> simp [evaluateAt, descend?, child?, ih]

end LiveStyle.Node
