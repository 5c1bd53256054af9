import LiveStyle.Session.Store

/-! # Commands

What a session can be asked to do, what it answers, and why it may refuse.
-/
namespace LiveStyle.Session

inductive Reading where
  | offset
  | extent
  | viewportHeight
  | metrics
  | named (name : Variable)
  deriving DecidableEq, Repr

inductive Command where
  /-- Set the metrics of a recording source. -/
  | set (metrics : ScrollMetrics)
  | read (reading : Reading)
  | division (policy : DivisionPolicy)
  | build (id : String) (recipe : Recipe)
  | combine (id symbol left right : String)
  | bind (id style : String)
  /-- Move a held style into a binding and evaluate the one it replaces, which may be kept.
  A fault of the style is found before one of the binding. -/
  | replace (id style : String) (keep : Option String)
  | refresh (id : String)
  | current (id : String)
  | evaluate (id : String) (path : List Node.Step)
  | isConstant (id : String)
  | drop (id : String)

inductive Reply where
  | done
  | float (x : Float)
  | metrics (m : ScrollMetrics)
  | policy (p : DivisionPolicy)
  | style (s : Style)
  | binding (constant : Bool) (current : Option StyleValue)
  | value (v : Option StyleValue)
  | flag (b : Bool)

inductive Refusal where
  | noSuchId
  | wrongKind
  | notANode
  | notRecording
  deriving DecidableEq, Repr

def Refusal.message : Refusal → String
  | noSuchId => "no such id"
  | wrongKind => "wrong kind"
  | notANode => "not a node"
  | notRecording => "not recording"

end LiveStyle.Session
