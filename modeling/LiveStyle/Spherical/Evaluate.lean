import LiveStyle.Spherical.Value
import LiveStyle.Tree.Evaluate

/-! # Evaluating spherical values

The components are the first three terms of the first expression: azimuth, inclination
and radius.  Missing angles are zero and a missing radius is `auto`; an identifier in
the place of the radius is a keyword, whatever it says.  The components are built in
the order in which they are written, but the radius is evaluated first.
-/
namespace LiveStyle

inductive RadiusTerm where
  | keyword (name : String)
  | length (node : Node)
  deriving DecidableEq

structure Spherical where
  azimuth : Node
  inclination : Node
  radius : RadiusTerm
  memo : Memo SphericalValue
  deriving DecidableEq

namespace RadiusTerm

def isConstant : RadiusTerm → Bool
  | keyword _ => true
  | length node => node.isConstant

def ofTerm? (policy : DivisionPolicy) : Option Term → Log → RadiusTerm × Log
  | none, log => (keyword autoKeyword, log)
  | some (.identifier name), log => (keyword name, log)
  | some term, log => let (node, log) := Node.ofTerm policy term log; (length node, log)

def evaluate {σ : Type} [ScrollSource σ] : RadiusTerm → Host σ → Outcome RadiusTerm Radius σ
  | keyword name, host => ⟨.keyword name, keyword name, host⟩
  | length node, host =>
    let o := node.evaluate host
    ⟨.metres o.value.toBase.number, length o.next, o.host⟩

end RadiusTerm

namespace Spherical

/-- Assemble the components; the whole is constant when all three are. -/
def ofComponents (azimuth inclination : Node) (radius : RadiusTerm) : Spherical :=
  ⟨azimuth, inclination, radius,
    .fresh (azimuth.isConstant && inclination.isConstant && radius.isConstant)⟩

/-- The node of an angle that may be missing. -/
def angle (policy : DivisionPolicy) : Option Term → Log → Node × Log
  | none, log => (.zero, log)
  | some term, log => Node.ofTerm policy term log

def ofTerms (policy : DivisionPolicy) (terms : List Term) (log : Log) : Spherical × Log :=
  let (azimuth, log) := angle policy terms[0]? log
  let (inclination, log) := angle policy terms[1]? log
  let (radius, log) := RadiusTerm.ofTerm? policy terms[2]? log
  (ofComponents azimuth inclination radius, log)

/-- Whatever goes beyond three terms or one expression is ignored, and logged before anything
is built. -/
def ofExpressions (policy : DivisionPolicy) (expressions : List Expression) (log : Log) :
    Spherical × Log :=
  let terms := expressions.headD []
  let log :=
    if terms.length > 3 || expressions.length > 1 then
      log.push (.extraComponents expressions.length terms.length)
    else log
  ofTerms policy terms log

def isConstant (s : Spherical) : Bool := s.memo.constant

def evaluate {σ : Type} [ScrollSource σ] (s : Spherical) (host : Host σ) :
    Outcome Spherical SphericalValue σ :=
  match s.memo.remembered with
  | some value => ⟨value, s, host.note .cacheHit⟩
  | none =>
    let r := s.radius.evaluate host
    let a := s.azimuth.evaluate r.host
    let i := s.inclination.evaluate a.host
    let value := ⟨a.value.toBase.number, i.value.toBase.number, r.value⟩
    ⟨value, ⟨a.next, i.next, r.next, s.memo.keep value⟩, i.host⟩

instance : Evaluator Spherical SphericalValue where
  isConstant := isConstant
  evaluate := evaluate

/-- The value of one expression under the default policy, where nothing scrolls. -/
def detachedValue (expression : Expression) (log : Log) : SphericalValue × Log :=
  let (s, log) := ofExpressions default [expression] log
  let o := s.evaluate (⟨{}, log⟩ : Host Detached)
  (o.value, o.host.log)

end Spherical
end LiveStyle
