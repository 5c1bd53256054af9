import LiveStyle.Proofs.Evaluation.Places

/-! # Operands in the place of others

A calculation sees its operands through their nodes alone.  With another operand in the place of
one, at any depth, it has the same build error and is the same tree but for the node of that
operand.  Nodes are interchangeable when they have one live value over every source and fix the
same value, if any; trees that are the same but for interchangeable nodes are so as well, and answer
alike for ever.
-/
namespace LiveStyle

namespace Term

/-- A calculation with the place of one operand left open. -/
structure Frame where
  /-- The arguments in front of the one with the open place. -/
  earlier : List (List Term)
  before : List Term
  after : List Term
  later : List (List Term)

def Frame.arguments (frame : Frame) (operand : Term) : List (List Term) :=
  frame.earlier ++ (frame.before ++ operand :: frame.after) :: frame.later

def within (frames : List Frame) (operand : Term) : Term :=
  frames.foldr (fun frame inner => .call "calc" (frame.arguments inner)) operand

theorem symbol?_within (frames : List Frame) {operand : Term} (h : operand.symbol? = none) :
    (within frames operand).symbol? = none := by
  cases frames with
  | nil => exact h
  | cons frame frames => rfl

theorem Frame.forall₂_arguments {R : Term → Term → Prop} (hrefl : ∀ term, R term term)
    (frame : Frame) {a b : Term} (h : R a b) :
    List.Forall₂ (List.Forall₂ R) (frame.arguments a) (frame.arguments b) := by
  have hsame (terms : List Term) : List.Forall₂ R terms terms :=
    List.forall₂_same.mpr fun term _ => hrefl term
  have hsames (arguments : List (List Term)) : List.Forall₂ (List.Forall₂ R) arguments arguments :=
    List.forall₂_same.mpr fun terms _ => hsame terms
  apply List.rel_append (hsames frame.earlier)
  refine .cons ?_ (hsames frame.later)
  exact List.rel_append (hsame frame.before) (.cons h (hsame frame.after))

end Term

namespace Node
open Slot Term

/-- The same tree, but for `new` in places of `old`. -/
inductive SameBut (old new : Node) : Node → Node → Prop
  | same (node : Node) : SameBut old new node node
  | here : SameBut old new old new
  | join (policy : DivisionPolicy) (symbol : String) {left left' right right' : Node} :
      SameBut old new left left' → SameBut old new right right' →
      SameBut old new (join policy symbol left right) (join policy symbol left' right')
  | enclose {inner inner' : Node} :
      SameBut old new inner inner' → SameBut old new (enclose inner) (enclose inner')

/-- The same fixed value, or none, and the same live value with the source left alike. -/
structure Interchangeable (m n : Node) : Prop where
  fixed?_eq : m.fixed? = n.fixed?
  live_eq : ∀ (σ : Type) [ScrollSource σ] (source : σ), m.live source = n.live source

/-- Two trees that cannot be told apart by evaluating them, over sources of any kind and whatever
has been evaluated of either before. -/
structure AnswerAlike (m n : Node) : Prop where
  isConstant_eq : m.isConstant = n.isConstant
  snapshots_eq : m.snapshots = n.snapshots
  evaluate_eq : ∀ now now' : Node, m.Later now → n.Later now' →
    ∀ (σ : Type) [ScrollSource σ] (host other : Host σ), host.source = other.source →
      (now.evaluate host).value = (now'.evaluate other).value ∧
        (now.evaluate host).host.source = (now'.evaluate other).host.source

namespace Interchangeable
variable {l m n l' : Node}

theorem refl (node : Node) : node.Interchangeable node := ⟨rfl, fun _ _ _ => rfl⟩

theorem symm (h : m.Interchangeable n) : n.Interchangeable m :=
  ⟨h.fixed?_eq.symm, fun σ _ source => (h.live_eq σ source).symm⟩

theorem trans (hl : l.Interchangeable m) (hm : m.Interchangeable n) : l.Interchangeable n :=
  ⟨hl.fixed?_eq.trans hm.fixed?_eq, fun σ _ source =>
    (hl.live_eq σ source).trans (hm.live_eq σ source)⟩

theorem join (policy : DivisionPolicy) (symbol : String) (hl : l.Interchangeable l')
    (hm : m.Interchangeable n) :
    (join policy symbol l m).Interchangeable (join policy symbol l' n) := by
  constructor
  · rw [Node.join, Node.join, fixed?, fixed?, hl.fixed?_eq, hm.fixed?_eq]
  · intro σ _ source
    simp only [Node.join, live, hl.live_eq, hm.live_eq]

/-- A calculation is worth what it encloses. -/
theorem enclose_self (node : Node) : (enclose node).Interchangeable node := ⟨rfl, fun _ _ _ => rfl⟩

theorem enclose (h : m.Interchangeable n) : (enclose m).Interchangeable (enclose n) :=
  (enclose_self m).trans (h.trans (enclose_self n).symm)

theorem literal {quantity : Quantity} (h : m.fixed? = some quantity) :
    m.Interchangeable (literal quantity) := by
  constructor
  · exact h
  · exact fun σ _ source => live_of_fixed? h source

/-- A recording tells how many snapshots are taken. -/
theorem snapshots_eq (h : m.Interchangeable n) : m.snapshots = n.snapshots := by
  have hlive := congrArg Prod.snd (h.live_eq Recording (.start .zero))
  rw [live_snd, live_snd, ScrollSource.skip_recording, ScrollSource.skip_recording] at hlive
  exact Nat.add_left_cancel (Recording.mk.inj hlive).2

theorem answerAlike (h : m.Interchangeable n) (hm : m.Coherent) (hn : n.Coherent) :
    m.AnswerAlike n where
  isConstant_eq := by rw [hm.isConstant_eq, hn.isConstant_eq, h.fixed?_eq]
  snapshots_eq := h.snapshots_eq
  evaluate_eq now now' hnow hnow' σ _ host other hsource := by
    have hleft := faithful_evaluate (hnow.coherent hm) host
    have hright := faithful_evaluate (hnow'.coherent hn) other
    rw [hleft.value_eq, hleft.source_eq, hright.value_eq, hright.source_eq,
      live_congr hnow.forget_eq, live_congr hnow'.forget_eq, h.live_eq, hsource]
    exact ⟨rfl, rfl⟩

end Interchangeable

/-- Interchangeable nodes in the places of each other leave a tree interchangeable. -/
theorem SameBut.interchangeable {old new m n : Node} (h : SameBut old new m n)
    (hold : old.Interchangeable new) : m.Interchangeable n := by
  induction h with
  | same node => exact .refl node
  | here => exact hold
  | join policy symbol _ _ hl hr => exact .join policy symbol hl hr
  | enclose _ h => exact h.enclose

section Within
variable (policy : DivisionPolicy) (name : String) (frame : Frame) {a b : Term}
  (ha : a.symbol? = none) (hb : b.symbol? = none)
include ha hb

/-- A calculation is built alike with operands that are alike. -/
theorem arguments_sameBut {old new : Node} (h : SameBut old new (leaf policy a) (leaf policy b))
    (log log' : Log) :
    SameBut old new (ofCalculation policy name (frame.arguments a) log).1
        (ofCalculation policy name (frame.arguments b) log').1 ∧
      (ofCalculation policy name (frame.arguments a) log).1.buildError? =
        (ofCalculation policy name (frame.arguments b) log').1.buildError? := by
  let R (x y : Term) := Slot.Matches (SameBut old new) (Slot.ofTerm policy x) (Slot.ofTerm policy y)
  have hrefl (term : Term) : R term term := by
    simp only [R]
    cases Slot.ofTerm policy term with
    | operand node => exact .operand (.same node)
    | operator symbol => exact .operator symbol
  have hoperand : R a b := by
    simp only [R]
    rw [ofTerm_of_operand policy ha, ofTerm_of_operand policy hb]
    exact .operand h
  obtain ⟨result, result', hsame, hresult, hresult'⟩ :=
    ofCalculation_sameOutcome (fun symbol _ _ _ _ => .join policy symbol) name log log'
      (frame.forall₂_arguments hrefl hoperand)
  rw [hresult, hresult']
  cases hsame with
  | ok hinner => exact ⟨.enclose hinner, rfl⟩
  | error error => exact ⟨.same _, rfl⟩

theorem within_sameBut (frames : List Frame) :
    SameBut (leaf policy a) (leaf policy b) (leaf policy (within frames a))
      (leaf policy (within frames b)) := by
  induction frames with
  | nil => exact .here
  | cons frame frames ih =>
    exact (arguments_sameBut policy "calc" frame (symbol?_within frames ha)
      (symbol?_within frames hb) ih #[] #[]).1

end Within
end Node
end LiveStyle
