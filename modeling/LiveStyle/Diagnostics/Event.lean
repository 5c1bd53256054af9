import LiveStyle.Quantity.Combine
import LiveStyle.Term.Text
import LiveStyle.Tree.BuildError

/-! # Diagnostic events

Nothing a style expression contains makes building or evaluation fail; what was
replaced by zero, ignored or remembered is reported as an event instead.  An event
keeps what it is about as data, and its texts are derived on demand.
-/
namespace LiveStyle

inductive Event where
  | buildStarted (call : Term)
  | noTree (error : BuildError) (call : Term)
  | notEvaluatable (term : Term)
  | unknownFunction (name : String)
  | unknownVariable (identifier : Option String)
  /-- An operator faulted on two operand values, given as they were evaluated. -/
  | degraded (fault : Fault) (left right : Quantity)
  /-- Count of the expressions of a spherical value, and of the terms of its first one. -/
  | extraComponents (expressions terms : Nat)
  | unknownPolicy (setting value : String)
  | cacheHit

abbrev Log := Array Event

inductive Level where
  | warn
  | debug
  | trace
  deriving DecidableEq, Repr

namespace Level

def name : Level → String
  | warn => "WARN"
  | debug => "DEBUG"
  | trace => "TRACE"

end Level

inductive Verbosity where
  | debug
  | trace
  deriving DecidableEq, Repr

namespace Verbosity

def shows : Verbosity → Level → Bool
  | debug, level => level != .trace
  | trace, _ => true

end Verbosity

namespace Event

def level : Event → Level
  | unknownPolicy .. => .warn
  | buildStarted .. | cacheHit => .trace
  | noTree .. | notEvaluatable .. | unknownFunction .. | unknownVariable .. | degraded ..
  | extraComponents .. => .debug

/-- Whether the event opens a span of work rather than reporting a fact. -/
def isSpan : Event → Bool
  | buildStarted .. => true
  | _ => false

def title : Event → String
  | buildStarted .. => "build_tree"
  | noTree .. => "calc() has no evaluation tree"
  | notEvaluatable .. => "term is not evaluatable; using zero"
  | unknownFunction .. => "unknown function; using zero"
  | unknownVariable .. => "env() identifier not recognized; evaluates to zero"
  | degraded .. => "operator degraded to zero"
  | extraComponents .. => "extra spherical components ignored"
  | unknownPolicy .. => "unknown division policy; using `" ++ DivisionPolicy.ieee.name ++ "`"
  | cacheHit => "constant cache hit"

def fields : Event → List (String × String)
  | buildStarted call => [("expr", call.text)]
  | noTree error call => [("error", error.message), ("expr", call.text)]
  | notEvaluatable term => [("term", term.text), ("kind", term.kind)]
  | unknownFunction name => [("function", name)]
  | unknownVariable identifier => identifier.toList.map ("identifier", ·)
  | degraded fault left right =>
    [("fault", fault.message), ("left", left.text), ("right", right.text)]
  | extraComponents expressions terms =>
    [("expressions", Nat.repr expressions), ("terms", Nat.repr terms)]
  | unknownPolicy setting value => [("var", setting), ("value", value)]
  | cacheHit => []

end Event
end LiveStyle
