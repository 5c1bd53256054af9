import LiveStyle.Quantity.Combine
import LiveStyle.Tree.BuildError

/-! # Evaluation trees

A node is a literal, an environment reading, an operator over two nodes, or a
calculation around one; a calculation that could not be built keeps the reason.
Whether a node is constant is settled when it is made, from its children.  A
constant node remembers its value once it has been computed, and nothing else of a
tree ever changes.
-/
namespace LiveStyle

/-- The place where a constant node remembers its value. -/
structure Memo (α : Type) where
  constant : Bool
  value : Option α
  deriving DecidableEq

namespace Memo

variable {α : Type}

def fresh (constant : Bool) : Memo α := ⟨constant, none⟩

def remembered (m : Memo α) : Option α := if m.constant then m.value else none

/-- Remember a value, if the node is constant. -/
def keep (m : Memo α) (a : α) : Memo α := if m.constant then { m with value := some a } else m

@[simp] theorem fresh_constant (c : Bool) : (fresh c : Memo α).constant = c := rfl

@[simp] theorem keep_constant (m : Memo α) (a : α) : (m.keep a).constant = m.constant := by
  unfold keep; split <;> rfl

end Memo

inductive Node where
  | literal (quantity : Quantity)
  /-- A reading of the named environment variable; unknown names and none read nothing. -/
  | environment (identifier : Option String)
  | operator (symbol : String) (left right : Node) (policy : DivisionPolicy) (memo : Memo Quantity)
  | calculation (inner : Node) (memo : Memo Quantity)
  /-- A calculation without a tree, which evaluates to zero. -/
  | broken (error : BuildError) (memo : Memo Quantity)
  deriving DecidableEq

namespace Node

def zero : Node := literal .zero

instance : Inhabited Node := ⟨zero⟩

/-- Whether the value can never change between evaluations. -/
def isConstant : Node → Bool
  | literal _ => true
  | environment _ => false
  | operator _ _ _ _ memo => memo.constant
  | calculation _ memo => memo.constant
  | broken _ memo => memo.constant

/-- Put an operator over two nodes; the result is constant when both are. -/
def join (policy : DivisionPolicy) (symbol : String) (left right : Node) : Node :=
  operator symbol left right policy (.fresh (left.isConstant && right.isConstant))

def enclose (inner : Node) : Node := calculation inner (.fresh inner.isConstant)

def fail (error : BuildError) : Node := broken error (.fresh true)

def buildError? : Node → Option BuildError
  | broken error _ => some error
  | _ => none

inductive Step where
  | inner
  | left
  | right
  deriving DecidableEq, Repr

def child? : Node → Step → Option Node
  | calculation inner _, .inner => some inner
  | operator _ left _ _ _, .left => some left
  | operator _ _ right _ _, .right => some right
  | _, _ => none

/-- The node at the end of a path of steps, if there is one. -/
def descend? : List Step → Node → Option Node
  | [], node => some node
  | step :: path, node => (node.child? step).bind (descend? path)

end Node
end LiveStyle
