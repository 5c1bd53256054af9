import LiveStyle.Spherical.Evaluate

/-! # Styles

A style is what a host can evaluate: the tree of a number, a spherical value, or a
probe of its own.  A recipe says how one is made from terms.
-/
namespace LiveStyle

/-- An evaluator whose value is the count of its evaluations. -/
structure Probe where
  constant : Bool
  calls : Nat
  deriving DecidableEq, Repr

namespace Probe

def evaluate {σ : Type} (p : Probe) (host : Host σ) : Outcome Probe Nat σ :=
  ⟨p.calls + 1, { p with calls := p.calls + 1 }, host⟩

instance : Evaluator Probe Nat where
  isConstant := constant
  evaluate := evaluate

end Probe

inductive Style where
  | number (node : Node)
  | spherical (value : Spherical)
  | probe (probe : Probe)
  deriving DecidableEq

inductive StyleValue where
  | number (quantity : Quantity)
  | spherical (value : SphericalValue)
  | calls (count : Nat)
  deriving DecidableEq

namespace Style

variable {σ : Type} [ScrollSource σ]

def isConstant : Style → Bool
  | number node => Evaluator.isConstant node
  | spherical s => Evaluator.isConstant s
  | probe p => Evaluator.isConstant p

def evaluate : Style → Host σ → Outcome Style StyleValue σ
  | number node, host =>
    let o := Evaluator.evaluate node host
    ⟨.number o.value, number o.next, o.host⟩
  | spherical s, host =>
    let o := Evaluator.evaluate s host
    ⟨.spherical o.value, spherical o.next, o.host⟩
  | probe p, host =>
    let o := Evaluator.evaluate p host
    ⟨.calls o.value, probe o.next, o.host⟩

instance : Evaluator Style StyleValue where
  isConstant := isConstant
  evaluate := evaluate

/-- Evaluate the node at the end of a path; only the trees of numbers have nodes below them. -/
def evaluateAt (path : List Node.Step) (style : Style) (host : Host σ) :
    Outcome Style (Option StyleValue) σ :=
  match path, style with
  | [], style =>
    let o := style.evaluate host
    ⟨some o.value, o.next, o.host⟩
  | path, number node =>
    let o := node.evaluateAt path host
    ⟨o.value.map .number, number o.next, o.host⟩
  | _, style => ⟨none, style, host⟩

end Style

inductive Recipe where
  | literal (quantity : Quantity)
  | term (term : Term)
  | calculation (name : String) (arguments : List Expression)
  | environment (arguments : List Expression)
  | spherical (expressions : List Expression)
  | probe (constant : Bool)

def Recipe.build (policy : DivisionPolicy) : Recipe → Log → Style × Log
  | literal quantity, log => (.number (.literal quantity), log)
  | term t, log =>
    let (node, log) := Node.ofTerm policy t log
    (.number node, log)
  | calculation name arguments, log =>
    let (node, log) := Node.ofCalculation policy name arguments log
    (.number node, log)
  | environment arguments, log =>
    let (node, log) := Node.ofEnvironment arguments log
    (.number node, log)
  | spherical expressions, log =>
    let (value, log) := Spherical.ofExpressions policy expressions log
    (.spherical value, log)
  | probe constant, log => (.probe ⟨constant, 0⟩, log)

end LiveStyle
