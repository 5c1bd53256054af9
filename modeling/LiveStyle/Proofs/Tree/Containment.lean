import LiveStyle.Tree.Basic

/-! # What stands in a tree

A tree contains the nodes at the ends of its paths: itself and whatever its children contain.
-/
namespace LiveStyle.Node

theorem descend?_append (start path : List Step) (node : Node) :
    descend? (start ++ path) node = (descend? start node).bind (descend? path) := by
  induction start generalizing node with
  | nil => rfl
  | cons step start ih =>
    cases hchild : node.child? step with
    | none => simp only [List.cons_append, descend?, hchild, Option.bind_none]
    | some child => simp only [List.cons_append, descend?, hchild, Option.bind_some, ih]

/-- A node stands in a tree when a path leads to it. -/
def Contains (node below : Node) : Prop := ∃ path, descend? path node = some below

variable {below : Node}

theorem contains_iff (node : Node) :
    node.Contains below ↔
      node = below ∨ ∃ step child, node.child? step = some child ∧ child.Contains below := by
  constructor
  · rintro ⟨_ | ⟨step, path⟩, h⟩
    · exact .inl (Option.some.inj h)
    · obtain ⟨child, hchild, h⟩ := Option.bind_eq_some_iff.mp h
      exact .inr ⟨step, child, hchild, path, h⟩
  · rintro (rfl | ⟨step, child, hchild, path, h⟩)
    · exact ⟨[], rfl⟩
    · exact ⟨step :: path, Option.bind_eq_some_iff.mpr ⟨child, hchild, h⟩⟩

/-- What passes from a node to its children passes to all that the node contains. -/
theorem Contains.of_child {P : Node → Prop} {node : Node} (h : node.Contains below)
    (hchild : ∀ {node step child}, P node → node.child? step = some child → P child)
    (hnode : P node) : P below := by
  obtain ⟨path, hpath⟩ := h
  induction path generalizing node with
  | nil =>
    cases hpath
    exact hnode
  | cons step path ih =>
    obtain ⟨child, hstep, hpath⟩ := Option.bind_eq_some_iff.mp hpath
    exact ih (hchild hnode hstep) hpath

theorem contains_of_childless {node : Node} (hnode : ∀ step, node.child? step = none) :
    node.Contains below ↔ node = below := by
  rw [contains_iff, or_iff_left]
  rintro ⟨step, child, hchild, -⟩
  rw [hnode step] at hchild
  cases hchild

@[simp] theorem contains_literal (quantity : Quantity) :
    (literal quantity).Contains below ↔ literal quantity = below :=
  contains_of_childless fun step => by cases step <;> rfl

@[simp] theorem contains_environment (identifier : Option String) :
    (environment identifier).Contains below ↔ environment identifier = below :=
  contains_of_childless fun step => by cases step <;> rfl

@[simp] theorem contains_broken (error : BuildError) (memo : Memo Quantity) :
    (broken error memo).Contains below ↔ broken error memo = below :=
  contains_of_childless fun step => by cases step <;> rfl

@[simp] theorem contains_operator (symbol : String) (left right : Node) (policy : DivisionPolicy)
    (memo : Memo Quantity) :
    (operator symbol left right policy memo).Contains below ↔
      operator symbol left right policy memo = below ∨ left.Contains below ∨
        right.Contains below := by
  rw [contains_iff]
  refine or_congr_right ⟨?_, ?_⟩
  · rintro ⟨_ | _ | _, child, ⟨⟩, h⟩
    · exact .inl h
    · exact .inr h
  · rintro (h | h)
    · exact ⟨.left, left, rfl, h⟩
    · exact ⟨.right, right, rfl, h⟩

@[simp] theorem contains_calculation (inner : Node) (memo : Memo Quantity) :
    (calculation inner memo).Contains below ↔
      calculation inner memo = below ∨ inner.Contains below := by
  rw [contains_iff]
  refine or_congr_right ⟨?_, fun h => ⟨.inner, inner, rfl, h⟩⟩
  rintro ⟨_ | _ | _, child, ⟨⟩, h⟩
  exact h

end LiveStyle.Node
