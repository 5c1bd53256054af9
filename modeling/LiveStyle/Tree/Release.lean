import LiveStyle.Tree.Basic

/-! # Releasing trees

A tree can be deeper than any recursion may go, so trees are released from a list of
pending nodes.  The node that became pending last is taken next: its children are taken
out, the compound ones become pending, and it is released empty.  A release begins with
a call of its own for what the node still holds; an empty node holds no compound one, so
that this call returns at once, however deep the tree was.
-/
namespace LiveStyle

/-- Leaves are not compound: they go with the list in which they are found. -/
def Node.isCompound : Node → Bool
  | literal _ => false
  | environment _ => false
  | operator .. => true
  | calculation .. => true
  | broken .. => true

/-- A compound node whose children can be taken out.  A calculation has a tree or an error, and
neither of them when its tree has been taken out. -/
inductive Shell where
  | operator (symbol : String) (left right : Node) (policy : DivisionPolicy)
      (memo : Memo Quantity)
  | calculation (inner : Option Node) (error : Option BuildError) (memo : Memo Quantity)
  deriving DecidableEq

namespace Shell

def ofNode? : Node → Option Shell
  | .literal _ => none
  | .environment _ => none
  | .operator symbol left right policy memo => some (operator symbol left right policy memo)
  | .calculation inner memo => some (calculation (some inner) none memo)
  | .broken error memo => some (calculation none (some error) memo)

/-- The children in place, from left to right, each with the step to it. -/
def children : Shell → List (Node.Step × Node)
  | operator _ left right _ _ => [(.left, left), (.right, right)]
  | calculation inner _ _ => inner.toList.map fun tree => (.inner, tree)

/-- What is left when the children are taken out: zeros for operands, and no tree. -/
def emptied : Shell → Shell
  | operator symbol _ _ policy memo => operator symbol .zero .zero policy memo
  | calculation _ error memo => calculation none error memo

theorem isSome_ofNode? (node : Node) : (ofNode? node).isSome = node.isCompound := by
  cases node <;> rfl

end Shell

structure Address where
  tree : Nat
  path : List Node.Step
  deriving DecidableEq

def Address.below (address : Address) (step : Node.Step) : Address :=
  { address with path := address.path ++ [step] }

def Address.ofTrees (trees : List Node) : List (Address × Node) :=
  trees.zipIdx.map fun (node, tree) => (⟨tree, []⟩, node)

structure Compound where
  address : Address
  shell : Shell
  deriving DecidableEq

namespace Compound

def children (node : Compound) : List (Address × Node) :=
  node.shell.children.map fun (step, child) => (node.address.below step, child)

def emptied (node : Compound) : Compound := { node with shell := node.shell.emptied }

def ofNode? (node : Address × Node) : Option Compound :=
  (Shell.ofNode? node.2).map fun shell => ⟨node.1, shell⟩

/-- The compound nodes of a list, which become pending from left to right, the last one first. -/
def pendingFrom (nodes : List (Address × Node)) : List Compound :=
  (nodes.filterMap ofNode?).reverse

theorem pendingFrom_cons (first : Address × Node) (nodes : List (Address × Node)) :
    pendingFrom (first :: nodes) = pendingFrom nodes ++ (ofNode? first).toList := by
  rw [pendingFrom, List.filterMap_cons]
  cases ofNode? first with
  | none => exact (List.append_nil _).symm
  | some node => exact List.reverse_cons

@[simp] theorem pendingFrom_emptied (node : Compound) : pendingFrom node.emptied.children = [] := by
  rcases node with ⟨address, _ | _⟩ <;> rfl

end Compound

/-! ### Sizes -/

def Node.size : Node → Nat
  | operator _ left right _ _ => left.size + right.size + 1
  | calculation inner _ => inner.size + 1
  | _ => 1

def Node.totalSize : List (Address × Node) → Nat
  | [] => 0
  | node :: nodes => node.2.size + totalSize nodes

namespace Compound

def size (node : Compound) : Nat := Node.totalSize node.children + 1

def totalSize : List Compound → Nat
  | [] => 0
  | node :: pending => node.size + totalSize pending

theorem size_of_ofNode? {first : Address × Node} {node : Compound} (h : ofNode? first = some node) :
    node.size = first.2.size := by
  obtain ⟨address, tree⟩ := first
  cases tree <;> cases h <;> simp [size, children, Shell.children, Node.totalSize, Node.size]

theorem totalSize_append (a b : List Compound) :
    totalSize (a ++ b) = totalSize a + totalSize b := by
  induction a with
  | nil => exact (Nat.zero_add _).symm
  | cons node a ih => rw [List.cons_append, totalSize, totalSize, ih, Nat.add_assoc]

theorem totalSize_pendingFrom (nodes : List (Address × Node)) :
    totalSize (pendingFrom nodes) ≤ Node.totalSize nodes := by
  induction nodes with
  | nil => exact Nat.le_refl 0
  | cons first nodes ih =>
    have hfirst : totalSize (ofNode? first).toList ≤ first.2.size := by
      cases h : ofNode? first with
      | none => exact Nat.zero_le _
      | some node => simp [totalSize, size_of_ofNode? h]
    calc totalSize (pendingFrom (first :: nodes))
        = totalSize (pendingFrom nodes) + totalSize (ofNode? first).toList := by
          rw [pendingFrom_cons, totalSize_append]
      _ ≤ Node.totalSize nodes + first.2.size := Nat.add_le_add ih hfirst
      _ = Node.totalSize (first :: nodes) := Nat.add_comm _ _

/-- The pending nodes and all compound ones below them, in the order of their release, each as it
is then. -/
def releasePending : List Compound → List Compound
  | [] => []
  | node :: pending => node.emptied :: releasePending (pendingFrom node.children ++ pending)
termination_by pending => totalSize pending
decreasing_by
  -- The list may grow, but the nodes that it stands for become fewer.
  have kept := totalSize_pendingFrom node.children
  rw [totalSize_append]
  simp only [totalSize, size]
  omega

end Compound

def Node.release (trees : List Node) : List Compound :=
  Compound.releasePending (Compound.pendingFrom (Address.ofTrees trees))

/-! ### Calls within calls -/

/-- The calls that have not returned, the innermost first, with what is pending in each, and the
nodes released so far. -/
structure Teardown where
  calls : List (List Compound)
  released : List Compound

namespace Teardown

def start (trees : List Node) : Teardown := ⟨[Compound.pendingFrom (Address.ofTrees trees)], []⟩

/-- A call returns when nothing is pending.  Until then it takes the next node, empties it, and
releases it, which calls for what the node still holds. -/
def step : Teardown → Teardown
  | ⟨[], released⟩ => ⟨[], released⟩
  | ⟨[] :: calls, released⟩ => ⟨calls, released⟩
  | ⟨(node :: pending) :: calls, released⟩ =>
    ⟨Compound.pendingFrom node.emptied.children ::
        (Compound.pendingFrom node.children ++ pending) :: calls,
      released ++ [node.emptied]⟩

def steps : Nat → Teardown → Teardown
  | 0, teardown => teardown
  | n + 1, teardown => steps n teardown.step

end Teardown
end LiveStyle
