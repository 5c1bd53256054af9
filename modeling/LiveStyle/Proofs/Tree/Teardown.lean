import LiveStyle.Proofs.Tree.Containment
import LiveStyle.Tree.Release
import Mathlib.Data.List.Nodup

/-! # A release is complete and shallow

The list of pending nodes stands for the compound nodes in it and below them.  Taking a node from
it and putting the node's compound children there keeps what it stands for, less the node that is
released; so every compound node of the trees is released once.  As an empty node has nothing to
release, the call that its own release makes returns at once, and calls are never more than two
deep.
-/
namespace LiveStyle

namespace Address

def extend (address : Address) (path : List Node.Step) : Address :=
  { address with path := address.path ++ path }

def find? (address : Address) (trees : List Node) : Option Node :=
  trees[address.tree]?.bind (Node.descend? address.path)

@[simp] theorem extend_nil (address : Address) : address.extend [] = address := by
  simp [extend]

@[simp] theorem extend_below (address : Address) (step : Node.Step) (path : List Node.Step) :
    (address.below step).extend path = address.extend (step :: path) := by
  simp [extend, below]

theorem extend_inj {address : Address} {path other : List Node.Step} :
    address.extend path = address.extend other ↔ path = other := by
  simp [extend]

theorem extend_cons_ne (address : Address) (step : Node.Step) (path : List Node.Step) :
    address.extend (step :: path) ≠ address := by
  intro h
  rw [← extend_nil address, ← extend_below] at h
  simp [extend, below] at h

theorem mem_ofTrees {trees : List Node} {address : Address} {node : Node} :
    (address, node) ∈ ofTrees trees ↔ address.path = [] ∧ trees[address.tree]? = some node := by
  obtain ⟨tree, path⟩ := address
  simp only [ofTrees, List.mem_map, Prod.exists, List.mk_mem_zipIdx_iff_getElem?, Prod.mk.injEq,
    mk.injEq]
  constructor
  · rintro ⟨found, i, hfound, ⟨rfl, rfl⟩, rfl⟩
    exact ⟨rfl, hfound⟩
  · rintro ⟨rfl, hnode⟩
    exact ⟨node, tree, hnode, ⟨rfl, rfl⟩, rfl⟩

theorem pairwise_ofTrees (trees : List Node) :
    (ofTrees trees).Pairwise fun a b => a.1.tree ≠ b.1.tree := by
  rw [← List.pairwise_map, ofTrees, List.map_map]
  exact List.zipIdx_map_snd 0 trees ▸ List.nodup_range'

end Address

namespace Node

theorem Step.exists_iff {P : Step → Prop} : (∃ step, P step) ↔ P inner ∨ P left ∨ P right := by
  constructor
  · rintro ⟨_ | _ | _, h⟩
    · exact .inl h
    · exact .inr (.inl h)
    · exact .inr (.inr h)
  · rintro (h | h | h) <;> exact ⟨_, h⟩

theorem child_induction {P : Node → Prop}
    (h : ∀ node, (∀ step child, node.child? step = some child → P child) → P node) :
    ∀ node, P node := by
  intro node
  induction node with
  | literal | environment | broken =>
    apply h
    intro step child hchild
    cases step <;> cases hchild
  | operator symbol left right policy memo ihl ihr =>
    apply h
    intro step child hchild
    cases step <;> cases hchild
    · exact ihl
    · exact ihr
  | calculation inner memo ih =>
    apply h
    intro step child hchild
    cases step <;> cases hchild
    exact ih

/-- The compound nodes of a tree, from its top and from left to right. -/
def compounds : Node → Address → List Compound
  | operator symbol left right policy memo, address =>
    ⟨address, .operator symbol left right policy memo⟩ ::
      (left.compounds (address.below .left) ++ right.compounds (address.below .right))
  | calculation inner memo, address =>
    ⟨address, .calculation (some inner) none memo⟩ :: inner.compounds (address.below .inner)
  | broken error memo, address => [⟨address, .calculation none (some error) memo⟩]
  | _, _ => []

variable {node : Node} {address : Address} {compound : Compound}

theorem mem_compounds :
    compound ∈ node.compounds address ↔ Compound.ofNode? (address, node) = some compound ∨
      ∃ step child, node.child? step = some child ∧
        compound ∈ child.compounds (address.below step) := by
  rw [Step.exists_iff]
  cases node <;> simp [compounds, Compound.ofNode?, Shell.ofNode?, child?, eq_comm]

/-- The compounds of a tree are the compound nodes at the ends of its paths. -/
theorem mem_compounds_iff :
    compound ∈ node.compounds address ↔
      ∃ path below, descend? path node = some below ∧
        Compound.ofNode? (address.extend path, below) = some compound := by
  constructor
  · intro h
    induction node using child_induction generalizing address with
    | h node ih =>
      rcases mem_compounds.mp h with h | ⟨step, child, hchild, h⟩
      · exact ⟨[], node, rfl, by rwa [Address.extend_nil]⟩
      · obtain ⟨path, below, hpath, hbelow⟩ := ih step child hchild h
        rw [Address.extend_below] at hbelow
        exact ⟨step :: path, below, Option.bind_eq_some_iff.mpr ⟨child, hchild, hpath⟩, hbelow⟩
  · rintro ⟨path, below, hpath, h⟩
    induction path generalizing node address with
    | nil =>
      cases hpath
      rw [Address.extend_nil] at h
      exact mem_compounds.mpr (.inl h)
    | cons step path ih =>
      obtain ⟨child, hchild, hpath⟩ := Option.bind_eq_some_iff.mp hpath
      rw [← Address.extend_below] at h
      exact mem_compounds.mpr (.inr ⟨step, child, hchild, ih hpath h⟩)

end Node

namespace Compound

variable {node compound : Compound}

theorem address_of_ofNode? {first : Address × Node} (h : ofNode? first = some node) :
    node.address = first.1 := by
  obtain ⟨shell, -, rfl⟩ := Option.map_eq_some_iff.mp h
  rfl

/-- A compound node and those below it. -/
def withBelow (node : Compound) : List Compound :=
  node :: node.children.flatMap fun child => child.2.compounds child.1

def allOf (trees : List (Address × Node)) : List Compound :=
  trees.flatMap fun tree => tree.2.compounds tree.1

theorem compounds_eq (tree : Address × Node) :
    tree.2.compounds tree.1 = (ofNode? tree).toList.flatMap withBelow := by
  obtain ⟨address, node⟩ := tree
  cases node <;>
    simp [Node.compounds, ofNode?, Shell.ofNode?, withBelow, children, Shell.children]

/-! ### What the pending list stands for -/

theorem perm_pendingFrom (trees : List (Address × Node)) :
    ((pendingFrom trees).flatMap withBelow).Perm (allOf trees) := by
  induction trees with
  | nil => exact .nil
  | cons tree trees ih =>
    rw [pendingFrom_cons, List.flatMap_append, ← compounds_eq, allOf, List.flatMap_cons]
    exact List.perm_append_comm.trans (ih.append_left _)

/-- The pending nodes and those below them are released, each as it is when it is empty. -/
theorem perm_releasePending (pending : List Compound) :
    (releasePending pending).Perm ((pending.flatMap withBelow).map emptied) := by
  induction pending using releasePending.induct with
  | case1 =>
    rw [releasePending]
    exact .nil
  | case2 node pending ih =>
    have hbelow : ((pendingFrom node.children ++ pending).flatMap withBelow).Perm
        (allOf node.children ++ pending.flatMap withBelow) := by
      rw [List.flatMap_append]
      exact (perm_pendingFrom _).append_right _
    rw [releasePending, List.flatMap_cons, withBelow, List.cons_append, List.map_cons]
    exact (ih.trans (hbelow.map _)).cons _

theorem perm_release (trees : List Node) :
    (Node.release trees).Perm ((allOf (Address.ofTrees trees)).map emptied) :=
  (perm_releasePending _).trans ((perm_pendingFrom _).map _)

/-! ### Each address once -/

theorem address_of_mem {node : Node} {address : Address} (h : compound ∈ node.compounds address) :
    ∃ path, compound.address = address.extend path := by
  obtain ⟨path, below, -, hcompound⟩ := Node.mem_compounds_iff.mp h
  exact ⟨path, address_of_ofNode? hcompound⟩

theorem nodup_compounds (node : Node) (address : Address) :
    ((node.compounds address).map Compound.address).Nodup := by
  have hbelow {child : Node} {step : Node.Step} {found : Address} {address : Address}
      (h : found ∈ (child.compounds (address.below step)).map Compound.address) :
      ∃ path, found = address.extend (step :: path) := by
    obtain ⟨compound, hcompound, rfl⟩ := List.mem_map.mp h
    obtain ⟨path, hpath⟩ := address_of_mem hcompound
    exact ⟨path, by rw [hpath, Address.extend_below]⟩
  have habove {child : Node} {step : Node.Step} {address : Address} :
      address ∉ (child.compounds (address.below step)).map Compound.address := by
    intro h
    obtain ⟨path, hpath⟩ := hbelow h
    exact address.extend_cons_ne step path hpath.symm
  induction node generalizing address with
  | literal | environment => exact .nil
  | broken => exact List.nodup_singleton _
  | calculation inner memo ih =>
    rw [Node.compounds, List.map_cons, List.nodup_cons]
    exact ⟨habove, ih _⟩
  | operator symbol left right policy memo ihl ihr =>
    rw [Node.compounds, List.map_cons, List.map_append, List.nodup_cons, List.mem_append, not_or,
      List.nodup_append]
    refine ⟨⟨habove, habove⟩, ihl _, ihr _, fun a ha b hb hab => ?_⟩
    obtain ⟨path, rfl⟩ := hbelow ha
    obtain ⟨other, rfl⟩ := hbelow hb
    cases Address.extend_inj.mp hab

/-- The compound nodes of the trees are found at their addresses. -/
theorem mem_allOf_ofTrees {trees : List Node} :
    compound ∈ allOf (Address.ofTrees trees) ↔
      ∃ node, compound.address.find? trees = some node ∧
        ofNode? (compound.address, node) = some compound := by
  constructor
  · intro h
    obtain ⟨⟨address, tree⟩, htree, h⟩ := List.mem_flatMap.mp h
    obtain ⟨hpath, htree⟩ := Address.mem_ofTrees.mp htree
    obtain ⟨path, node, hnode, hcompound⟩ := Node.mem_compounds_iff.mp h
    have haddress := address_of_ofNode? hcompound
    refine ⟨node, ?_, by rwa [haddress]⟩
    rw [haddress, Address.find?, Address.extend, hpath, htree]
    exact hnode
  · rintro ⟨node, hnode, hcompound⟩
    obtain ⟨tree, htree, hnode⟩ := Option.bind_eq_some_iff.mp hnode
    refine List.mem_flatMap.mpr ⟨(⟨compound.address.tree, []⟩, tree), ?_, ?_⟩
    · exact Address.mem_ofTrees.mpr ⟨rfl, htree⟩
    · exact Node.mem_compounds_iff.mpr ⟨compound.address.path, node, hnode, hcompound⟩

theorem nodup_allOf_ofTrees (trees : List Node) :
    ((allOf (Address.ofTrees trees)).map Compound.address).Nodup := by
  rw [allOf, List.map_flatMap, List.nodup_flatMap]
  refine ⟨fun tree _ => nodup_compounds tree.2 tree.1, (Address.pairwise_ofTrees trees).imp ?_⟩
  intro tree other htree found hfound hother
  obtain ⟨compound, hcompound, rfl⟩ := List.mem_map.mp hfound
  obtain ⟨compound', hcompound', hsame⟩ := List.mem_map.mp hother
  obtain ⟨path, hpath⟩ := address_of_mem hcompound
  obtain ⟨path', hpath'⟩ := address_of_mem hcompound'
  rw [hpath, hpath'] at hsame
  exact htree (congrArg Address.tree hsame).symm

/-! ### What is released -/

theorem nodup_release (trees : List Node) :
    ((Node.release trees).map Compound.address).Nodup := by
  have hperm := (perm_release trees).map Compound.address
  rw [List.map_map] at hperm
  exact hperm.nodup_iff.mpr (nodup_allOf_ofTrees trees)

/-- What is released at an address is the compound node that stood there, empty. -/
theorem mem_release_iff {trees : List Node} :
    compound ∈ Node.release trees ↔
      ∃ node shell, compound.address.find? trees = some node ∧ Shell.ofNode? node = some shell ∧
        compound.shell = shell.emptied := by
  rw [(perm_release trees).mem_iff, List.mem_map]
  constructor
  · rintro ⟨whole, hwhole, rfl⟩
    obtain ⟨node, hnode, hwhole⟩ := mem_allOf_ofTrees.mp hwhole
    obtain ⟨shell, hshell, hwhole⟩ := Option.map_eq_some_iff.mp hwhole
    exact ⟨node, shell, hnode, hshell, by rw [← hwhole]; rfl⟩
  · rintro ⟨node, shell, hnode, hshell, hempty⟩
    refine ⟨⟨compound.address, shell⟩, mem_allOf_ofTrees.mpr ⟨node, hnode, ?_⟩, ?_⟩
    · rw [ofNode?, hshell, Option.map_some]
    · rw [emptied, ← hempty]

theorem mem_addresses_release {trees : List Node} {address : Address} :
    address ∈ (Node.release trees).map Compound.address ↔
      ∃ node, address.find? trees = some node ∧ node.isCompound = true := by
  constructor
  · intro h
    obtain ⟨compound, hcompound, rfl⟩ := List.mem_map.mp h
    obtain ⟨node, shell, hnode, hshell, -⟩ := mem_release_iff.mp hcompound
    exact ⟨node, hnode, by rw [← Shell.isSome_ofNode?, hshell, Option.isSome_some]⟩
  · rintro ⟨node, hnode, hcompound⟩
    rw [← Shell.isSome_ofNode?] at hcompound
    obtain ⟨shell, hshell⟩ := Option.isSome_iff_exists.mp hcompound
    exact List.mem_map.mpr ⟨⟨address, shell.emptied⟩,
      mem_release_iff.mpr ⟨node, shell, hnode, hshell, rfl⟩, rfl⟩

theorem mem_children_of_child? {node child : Node} {step : Node.Step} (address : Address)
    (h : node.child? step = some child) :
    ∃ whole, ofNode? (address, node) = some whole ∧
      (address.below step, child) ∈ whole.children := by
  cases node <;> cases step <;> cases h <;>
    exact ⟨_, rfl, by simp [children, Shell.children]⟩

/-- Every node is found in the list of the trees or taken out of a node that is released. -/
theorem mem_ofTrees_or_mem_children {trees : List Node} {address : Address} {node : Node}
    (h : address.find? trees = some node) :
    (address, node) ∈ Address.ofTrees trees ∨
      ∃ parent whole, whole.address.find? trees = some parent ∧
        ofNode? (whole.address, parent) = some whole ∧ whole.emptied ∈ Node.release trees ∧
        (address, node) ∈ whole.children := by
  obtain ⟨number, path⟩ := address
  obtain ⟨tree, htree, hpath⟩ := Option.bind_eq_some_iff.mp h
  rcases List.eq_nil_or_concat' path with rfl | ⟨init, step, rfl⟩
  · exact .inl (Address.mem_ofTrees.mpr ⟨rfl, htree.trans hpath⟩)
  · simp only [Node.descend?_append] at hpath
    obtain ⟨parent, hparent, hstep⟩ := Option.bind_eq_some_iff.mp hpath
    obtain ⟨child, hchild, hnode⟩ := Option.bind_eq_some_iff.mp hstep
    cases hnode
    obtain ⟨whole, hwhole, hmem⟩ := mem_children_of_child? ⟨number, init⟩ hchild
    obtain ⟨shell, hshell, rfl⟩ := Option.map_eq_some_iff.mp hwhole
    have hfind : Address.find? ⟨number, init⟩ trees = some parent :=
      Option.bind_eq_some_iff.mpr ⟨tree, htree, hparent⟩
    refine .inr ⟨parent, ⟨⟨number, init⟩, shell⟩, hfind, hwhole, ?_, hmem⟩
    exact mem_release_iff.mpr ⟨parent, shell, hfind, hshell, rfl⟩

theorem emptied_cases (shell : Shell) :
    (∃ symbol policy memo, shell.emptied = .operator symbol .zero .zero policy memo) ∨
      ∃ error memo, shell.emptied = .calculation none error memo := by
  cases shell with
  | operator symbol left right policy memo => exact .inl ⟨symbol, policy, memo, rfl⟩
  | calculation inner error memo => exact .inr ⟨error, memo, rfl⟩

theorem isCompound_of_mem_emptied {child : Address × Node} (h : child ∈ compound.emptied.children) :
    child.2.isCompound = false := by
  obtain ⟨⟨step, node⟩, hnode, rfl⟩ := List.mem_map.mp h
  obtain ⟨address, _ | _⟩ := compound
  · rcases List.mem_pair.mp hnode with hnode | hnode <;> cases hnode <;> rfl
  · cases hnode

end Compound

namespace Teardown
open Compound

theorem steps_succ (n : Nat) (teardown : Teardown) :
    steps (n + 1) teardown = steps n teardown.step := rfl

theorem steps_add (m n : Nat) (teardown : Teardown) :
    steps (m + n) teardown = steps n (steps m teardown) := by
  induction m generalizing teardown with
  | zero => rw [Nat.zero_add, steps]
  | succ m ih => rw [Nat.succ_add, steps_succ, steps_succ, ih]

theorem steps_returned (n : Nat) (released : List Compound) :
    steps n ⟨[], released⟩ = ⟨[], released⟩ := by
  induction n with
  | zero => rfl
  | succ n ih => exact ih

/-- A call returns after two steps for each node that it releases, one of them for the call within
it, and has released what the pending list stands for. -/
theorem steps_call (pending : List Compound) (calls : List (List Compound))
    (released : List Compound) :
    steps (2 * (releasePending pending).length + 1) ⟨pending :: calls, released⟩ =
      ⟨calls, released ++ releasePending pending⟩ := by
  induction pending using releasePending.induct generalizing released with
  | case1 =>
    rw [releasePending, List.append_nil]
    rfl
  | case2 node pending ih =>
    rw [releasePending, List.length_cons, Nat.mul_succ, Nat.add_right_comm, steps_succ, steps_succ,
      step, pendingFrom_emptied, step, ih, List.append_assoc, List.singleton_append]

/-- Calls are at most two deep, and nothing is pending in a call within another one. -/
inductive Shallow : List (List Compound) → Prop
  | returned : Shallow []
  | outer (pending : List Compound) : Shallow [pending]
  | inner (pending : List Compound) : Shallow [[], pending]

theorem Shallow.length_le {calls : List (List Compound)} (h : Shallow calls) :
    calls.length ≤ 2 := by
  cases h <;> simp

theorem Shallow.within_eq_nil {within call : List Compound} {calls : List (List Compound)}
    (h : Shallow (within :: call :: calls)) : within = [] := by
  cases h
  rfl

theorem Shallow.step {teardown : Teardown} (h : Shallow teardown.calls) :
    Shallow teardown.step.calls := by
  obtain ⟨calls, released⟩ := teardown
  cases h with
  | returned => exact .returned
  | outer pending =>
    cases pending with
    | nil => exact .returned
    | cons node pending =>
      rw [Teardown.step, pendingFrom_emptied]
      exact .inner _
  | inner pending => exact .outer pending

theorem Shallow.steps {teardown : Teardown} (h : Shallow teardown.calls) (n : Nat) :
    Shallow (teardown.steps n).calls := by
  induction n generalizing teardown with
  | zero => exact h
  | succ n ih => exact ih h.step

end Teardown

/-- A release ends, and leaves nothing out: it returns after two steps for each compound node and
one more, and has released every compound node of the trees once and no other, while every leaf is
found in the list of the trees or taken out of a released node.  What it releases is empty, with
zeros for operands or without a tree, so that no compound node is left in it; at no time are calls
more than two deep, and in a call within another nothing is ever pending. -/
theorem release_complete_and_shallow (trees : List Node) :
    (∀ n, 2 * (Node.release trees).length + 1 ≤ n →
      (Teardown.start trees).steps n = ⟨[], Node.release trees⟩) ∧
    ((Node.release trees).map Compound.address).Nodup ∧
    (∀ address, address ∈ (Node.release trees).map Compound.address ↔
      ∃ node, address.find? trees = some node ∧ node.isCompound = true) ∧
    (∀ address node, address.find? trees = some node → node.isCompound = false →
      (address, node) ∈ Address.ofTrees trees ∨
        ∃ parent whole, whole.address.find? trees = some parent ∧
          Compound.ofNode? (whole.address, parent) = some whole ∧
          whole.emptied ∈ Node.release trees ∧ (address, node) ∈ whole.children) ∧
    (∀ compound ∈ Node.release trees,
      (∃ node shell, compound.address.find? trees = some node ∧
        Shell.ofNode? node = some shell ∧ compound.shell = shell.emptied) ∧
      ((∃ symbol policy memo, compound.shell = .operator symbol .zero .zero policy memo) ∨
        ∃ error memo, compound.shell = .calculation none error memo) ∧
      (∀ child ∈ compound.children, child.2.isCompound = false) ∧
      Compound.pendingFrom compound.children = []) ∧
    ∀ n, ((Teardown.start trees).steps n).calls.length ≤ 2 ∧
      ∀ within call calls, ((Teardown.start trees).steps n).calls = within :: call :: calls →
        within = [] := by
  refine ⟨fun n hn => ?_, Compound.nodup_release trees, fun address =>
    Compound.mem_addresses_release, fun address node hnode _ =>
    Compound.mem_ofTrees_or_mem_children hnode, fun compound hcompound => ?_, fun n => ?_⟩
  · obtain ⟨rest, rfl⟩ := Nat.exists_eq_add_of_le hn
    rw [Teardown.start, Teardown.steps_add, Node.release, Teardown.steps_call,
      Teardown.steps_returned, List.nil_append]
  · obtain ⟨node, shell, hnode, hshell, hempty⟩ := Compound.mem_release_iff.mp hcompound
    have hemptied : compound = (Compound.mk compound.address shell).emptied := by
      rw [Compound.emptied, ← hempty]
    refine ⟨⟨node, shell, hnode, hshell, hempty⟩, hempty ▸ Compound.emptied_cases shell,
      fun child hchild => ?_, ?_⟩
    · rw [hemptied] at hchild
      exact Compound.isCompound_of_mem_emptied hchild
    · rw [hemptied, Compound.pendingFrom_emptied]
  · have hshallow : Teardown.Shallow ((Teardown.start trees).steps n).calls :=
      Teardown.Shallow.steps (.outer _) n
    refine ⟨hshallow.length_le, fun within call calls hcalls => ?_⟩
    rw [hcalls] at hshallow
    exact hshallow.within_eq_nil

/-- Two trees and a leaf; the leaf is not released, nor are those below the operators. -/
theorem release_complete_and_shallow_mixed :
    let scroll := Node.environment (some "window-scroll-y")
    let trees := [Node.join .zero "*" (.enclose scroll) (.join .ieee "+" .zero scroll), scroll,
      Node.fail .empty]
    (Node.release trees).length = 4 ∧
      (Teardown.start trees).steps 9 = ⟨[], Node.release trees⟩ ∧
      ⟨0, [.right]⟩ ∈ (Node.release trees).map Compound.address ∧
      ⟨0, [.right, .left]⟩ ∉ (Node.release trees).map Compound.address ∧
      ((Teardown.start trees).steps 3).calls.length ≤ 2 := by
  intro scroll trees
  obtain ⟨hreturns, -, haddresses, -, -, hshallow⟩ := release_complete_and_shallow trees
  have hlength : (Node.release trees).length = 4 := (Compound.perm_release trees).length_eq
  refine ⟨hlength, hreturns 9 (Nat.le_of_eq (by rw [hlength])),
    (haddresses _).mpr ⟨_, rfl, rfl⟩, ?_, (hshallow 3).1⟩
  rw [haddresses]
  rintro ⟨node, ⟨⟩, ⟨⟩⟩

end LiveStyle
