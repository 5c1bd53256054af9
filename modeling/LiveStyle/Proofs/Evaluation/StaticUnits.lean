import LiveStyle.Proofs.Evaluation.Places

/-! # Static units

Where every quotient stands, the numbers of a term settle neither the units of its values nor its
faults: these follow from the units that are written, the symbols and the names.  Terms that differ
in their numbers alone have values of the same unit, from any source and at any time, and their
operators fault in the same places with the same faults.  Whatever the policy, an operator gives
base units only.
-/
namespace LiveStyle

namespace Quantity

/-- What the units of two operands come to, whatever their numbers. -/
def combineUnits (symbol : String) (left right : Option MeasureUnit) :
    Except Fault (Option MeasureUnit) :=
  match jointUnit (left.map MeasureUnit.base) (right.map MeasureUnit.base) with
  | .error fault => .error fault
  | .ok unit =>
    if (ArithOp.ofSymbol? symbol).isSome then .ok unit else .error (.unsupportedOperator symbol)

/-- Where quotients stand, unit and fault of a combination follow from the units. -/
theorem map_unit_combine (symbol : String) (left right : Quantity) :
    (combine .ieee symbol left right).map unit = combineUnits symbol left.unit right.unit := by
  unfold combine combineInBase combineUnits
  rw [toBase_unit, toBase_unit]
  cases jointUnit (left.unit.map MeasureUnit.base) (right.unit.map MeasureUnit.base) with
  | error fault => rfl
  | ok unit => cases ArithOp.ofSymbol? symbol <;> rfl

theorem unit_combineOrZero_ieee (symbol : String) (left right : Quantity) :
    (combineOrZero .ieee symbol left right).unit =
      (combineUnits symbol left.unit right.unit).toOption.join := by
  rw [← map_unit_combine, combineOrZero]
  cases combine .ieee symbol left right <;> rfl

theorem fault_degradation?_ieee (symbol : String) (left right : Quantity) :
    (degradation? .ieee symbol left right).map Degradation.fault =
      match combineUnits symbol left.unit right.unit with
      | .ok _ => none
      | .error fault => some fault := by
  rw [← map_unit_combine, degradation?]
  cases combine .ieee symbol left right <;> rfl

theorem eq_or_eq_of_jointUnit {u v w : Option MeasureUnit} (h : jointUnit u v = .ok w) :
    w = u ∨ w = v := by
  unfold jointUnit at h
  split at h
  · split at h
    · cases h
      exact .inl rfl
    · cases h
  · cases h
    exact .inl rfl
  · cases h
    exact .inr rfl

theorem base_of_mem_unit_toBase {q : Quantity} {u : MeasureUnit} (h : u ∈ q.toBase.unit) :
    u = .radian ∨ u = .metre := by
  rw [toBase_unit] at h
  obtain ⟨v, -, rfl⟩ := Option.map_eq_some_iff.mp h
  cases v <;> decide

/-- A combination is unitless or in a base unit, and so is the zero that stands for a fault. -/
theorem base_of_mem_unit_combineOrZero {policy : DivisionPolicy} {symbol : String}
    {left right : Quantity} {u : MeasureUnit}
    (h : u ∈ (combineOrZero policy symbol left right).unit) : u = .radian ∨ u = .metre := by
  unfold combineOrZero combine combineInBase at h
  cases hunit : jointUnit left.toBase.unit right.toBase.unit with
  | error fault =>
    rw [hunit] at h
    cases h
  | ok unit =>
    rw [hunit] at h
    have hmem : u ∈ unit := by
      cases hop : ArithOp.ofSymbol? symbol with
      | none =>
        rw [hop] at h
        cases h
      | some op =>
        simp only [hop] at h
        split at h
        next result hresult =>
          split at hresult
          · cases hresult
          · cases hresult
            exact h
        next => cases h
    rcases eq_or_eq_of_jointUnit hunit with rfl | rfl
    · exact base_of_mem_unit_toBase hmem
    · exact base_of_mem_unit_toBase hmem

end Quantity

/-- Terms that differ in the numbers of their literals alone. -/
def Term.SameSkeleton (a b : Term) : Prop := a.Matches (fun p q => p.unit = q.unit) b

/-- Trees that differ in the numbers of their literals alone, and in which every quotient stands. -/
def Node.SameSkeleton (m n : Node) : Prop :=
  m.Matches (fun p q => p.unit = q.unit) (fun p q => p = .ieee ∧ q = .ieee) n

namespace Term

theorem forall₂_of_sameTerms {terms terms' : List Term} (h : sameTerms terms terms' = true) :
    List.Forall₂ (fun a b => a.same b = true) terms terms' := by
  induction terms generalizing terms' with
  | nil =>
    cases terms' with
    | nil => exact .nil
    | cons _ _ => simp [sameTerms] at h
  | cons term terms ih =>
    cases terms' with
    | nil => simp [sameTerms] at h
    | cons term' terms' =>
      rw [sameTerms, Bool.and_eq_true] at h
      exact .cons h.1 (ih h.2)

theorem forall₂_of_sameArguments {arguments arguments' : List (List Term)}
    (h : sameArguments arguments arguments' = true) :
    List.Forall₂ (List.Forall₂ fun a b => a.same b = true) arguments arguments' := by
  induction arguments generalizing arguments' with
  | nil =>
    cases arguments' with
    | nil => exact .nil
    | cons _ _ => simp [sameArguments] at h
  | cons terms arguments ih =>
    cases arguments' with
    | nil => simp [sameArguments] at h
    | cons terms' arguments' =>
      rw [sameArguments, Bool.and_eq_true] at h
      exact .cons (forall₂_of_sameTerms h.1) (ih h.2)

theorem sameSkeleton_of_same {a b : Term} (h : a.same b = true) : a.SameSkeleton b := by
  induction a generalizing b with
  | number p =>
    cases b <;> simp only [same, Bool.false_eq_true] at h
    rw [Quantity.same, Bool.and_eq_true] at h
    exact .number (of_decide_eq_true h.2)
  | identifier name =>
    cases b <;> simp only [same, Bool.false_eq_true, decide_eq_true_eq] at h
    subst h
    exact .identifier name
  | operator symbol =>
    cases b <;> simp only [same, Bool.false_eq_true, decide_eq_true_eq] at h
    subst h
    exact .operator symbol
  | call name arguments ih =>
    cases b <;> simp only [same, Bool.false_eq_true, Bool.and_eq_true, decide_eq_true_eq] at h
    obtain ⟨rfl, harguments⟩ := h
    refine .call name (forall₂_imp_of_mem ?_ (forall₂_of_sameArguments harguments))
    exact fun terms hterms term hterm _ => ih terms hterms term hterm

end Term

namespace Node

structure StaticallyAlike (m n : Node) : Prop where
  buildError?_eq : m.buildError? = n.buildError?
  isConstant_eq : m.isConstant = n.isConstant
  unit_eq : ∀ (σ τ : Type) [ScrollSource σ] [ScrollSource τ] (host : Host σ) (other : Host τ),
    (m.evaluate host).value.unit = (n.evaluate other).value.unit
  fault?_eq : ∀ (σ τ : Type) [ScrollSource σ] [ScrollSource τ] (host : Host σ) (other : Host τ),
    m.fault? host = n.fault? other

section TwoRuns
variable {m n : Node} {σ τ : Type} [ScrollSource σ] [ScrollSource τ]

theorem unit_snapshot (identifier : Option String) (source : σ) :
    (snapshot identifier source).1.unit = none := by
  unfold snapshot
  split <;> rfl

/-- The unit of a live value follows from the skeleton. -/
theorem SameSkeleton.unit_live (h : m.SameSkeleton n) (source : σ) (other : τ) :
    (m.live source).1.unit = (n.live other).1.unit := by
  induction h generalizing source other with
  | literal hunit => exact hunit
  | environment identifier => rw [live, live, unit_snapshot, unit_snapshot]
  | operator symbol _ _ hpolicy _ ihl ihr =>
    obtain ⟨rfl, rfl⟩ := hpolicy
    rw [live, live, Quantity.unit_combineOrZero_ieee, Quantity.unit_combineOrZero_ieee,
      ihl source other, ihr _ _]
  | calculation _ _ ih => exact ih source other
  | broken error _ => rfl

theorem SameSkeleton.unit_evaluate (h : m.SameSkeleton n) (hm : m.Coherent) (hn : n.Coherent)
    (host : Host σ) (other : Host τ) :
    (m.evaluate host).value.unit = (n.evaluate other).value.unit := by
  rw [(faithful_evaluate hm host).value_eq, (faithful_evaluate hn other).value_eq]
  exact h.unit_live host.source other.source

/-- And so does the fault of an operator. -/
theorem SameSkeleton.fault?_eq (h : m.SameSkeleton n) (hm : m.Coherent) (hn : n.Coherent)
    (host : Host σ) (other : Host τ) : m.fault? host = n.fault? other := by
  cases h with
  | @operator symbol left left' right right' _ _ _ _ hl hr hpolicy _ =>
    obtain ⟨rfl, rfl⟩ := hpolicy
    have hleft := SameSkeleton.unit_evaluate hl hm.1 hn.1 host other
    have hright := SameSkeleton.unit_evaluate hr hm.2.1 hn.2.1 (left.evaluate host).host
      (left'.evaluate other).host
    simp only [fault?, degradation?, Quantity.fault_degradation?_ieee, hleft, hright]
  | _ => rfl

theorem SameSkeleton.staticallyAlike (h : m.SameSkeleton n) (hm : m.Coherent)
    (hn : n.Coherent) : m.StaticallyAlike n where
  buildError?_eq := Matches.buildError?_eq h
  isConstant_eq := Matches.isConstant_eq h
  unit_eq _ _ _ _ host other := h.unit_evaluate hm hn host other
  fault?_eq _ _ _ _ host other := h.fault?_eq hm hn host other

end TwoRuns

theorem sameSkeleton_ofTerm {a b : Term} (h : a.SameSkeleton b) (log log' : Log) :
    (ofTerm .ieee a log).1.SameSkeleton (ofTerm .ieee b log').1 := by
  rw [ofTerm_fst, ofTerm_fst]
  refine matches_leaf ?_ ?_ h
  · exact ⟨rfl, rfl⟩
  · rfl

/-- In a tree that can be reached, what an operator gives is unitless or in a base unit. -/
theorem Reached.base_of_mem_unit {node left right : Node} {symbol : String}
    {policy : DivisionPolicy} {memo : Memo Quantity} (h : node.Reached)
    (hbelow : node.Contains (operator symbol left right policy memo)) {σ : Type} [ScrollSource σ]
    (host : Host σ) {u : MeasureUnit}
    (hunit : u ∈ ((operator symbol left right policy memo).evaluate host).value.unit) :
    u = .radian ∨ u = .metre := by
  obtain ⟨path, hpath⟩ := hbelow
  rw [(h.coherent.descend hpath).value_operator host] at hunit
  exact Quantity.base_of_mem_unit_combineOrZero hunit

end Node

/-- Units and faults are static.  Terms of one skeleton, where quotients stand, become trees of one
skeleton; at every place and at any time, over any two sources, these have values of the same unit,
and faults that are the same or absent from both.  And under either policy no operator gives any but
base units. -/
theorem units_and_faults_static :
    (∀ a b : Term, a.same b = true → a.SameSkeleton b) ∧
    (∀ (a b : Term) (log log' : Log), a.SameSkeleton b →
      let m := (Node.ofTerm .ieee a log).1
      let n := (Node.ofTerm .ieee b log').1
      m.SameSkeleton n ∧
        ∀ now now' : Node, m.Later now → n.Later now' → ∀ path,
          Option.Rel Node.StaticallyAlike (now.descend? path) (now'.descend? path)) ∧
    (∀ (node left right : Node) (symbol : String) (policy : DivisionPolicy)
      (memo : Memo Quantity), node.Reached →
        node.Contains (.operator symbol left right policy memo) →
          ∀ (σ : Type) [ScrollSource σ] (host : Host σ),
            ∀ u ∈ ((Node.operator symbol left right policy memo).evaluate host).value.unit,
              u = .radian ∨ u = .metre) := by
  refine ⟨fun a b => Term.sameSkeleton_of_same, ?_, ?_⟩
  · intro a b log log' h m n
    have hskeleton : m.SameSkeleton n := Node.sameSkeleton_ofTerm h log log'
    refine ⟨hskeleton, fun now now' hnow hnow' path => ?_⟩
    exact Node.Matches.rel_descend hskeleton (.term .ieee a log) (.term .ieee b log')
      Node.SameSkeleton.staticallyAlike hnow hnow' path
  · intro node left right symbol policy memo h hbelow σ _ host u hunit
    exact h.base_of_mem_unit hbelow host hunit

/-- An angle that scrolls, divided by a length: other numbers fault in the same place. -/
theorem units_and_faults_static_mismatch :
    let ratio (angle length : Float) := Term.call "calc"
      [[.call "calc" [[.number ⟨angle, some .degree⟩, .operator "+",
          .call "env" [[.identifier "window-scroll-y"]]]],
        .operator "/", .number ⟨length, some .centimetre⟩]]
    let m := (Node.ofTerm .ieee (ratio 90 2) #[]).1
    let n := (Node.ofTerm .ieee (ratio 0 0) #[]).1
    let host : Host Recording := ⟨Recording.start ⟨50, 500, 100⟩, #[]⟩
    let quotient := Node.join .ieee "/" (Node.leaf .ieee (.call "calc"
      [[.number ⟨90, some .degree⟩, .operator "+",
        .call "env" [[.identifier "window-scroll-y"]]]])) (.literal ⟨2, none⟩)
    (ratio 90 2).SameSkeleton (ratio 0 0) ∧ m.SameSkeleton n ∧
      Option.Rel Node.StaticallyAlike ((m.evaluateAt [] host).next.descend? [.inner])
        (n.descend? [.inner]) ∧
      (n.descend? [.inner]).isSome = true ∧ quotient.Reached ∧
      ∀ u ∈ (quotient.evaluate host).value.unit, u = .radian ∨ u = .metre := by
  intro ratio m n host quotient
  obtain ⟨-, htwo, hbase⟩ := units_and_faults_static
  have hterms : (ratio 90 2).SameSkeleton (ratio 0 0) := by
    refine .call "calc" (.cons (.cons (.call "calc" (.cons ?_ .nil)) ?_) .nil)
    · exact .cons (.number rfl) (.cons (.operator "+")
        (.cons (.call "env" (.cons (.cons (.identifier _) .nil) .nil)) .nil))
    · exact .cons (.operator "/") (.cons (.number rfl) .nil)
  obtain ⟨htrees, hplaces⟩ := htwo _ _ #[] #[] hterms
  have hplace := hplaces (m.evaluateAt [] host).next n (.evaluated [] host .now) .now [.inner]
  have hquotient : quotient.Reached :=
    .join .ieee "/" (.term .ieee _ #[]) (.term .ieee (.number ⟨2, none⟩) #[])
  have hunit := hbase quotient _ _ _ _ _ hquotient ⟨[], rfl⟩ Recording host
  exact ⟨hterms, htrees, hplace, rfl, hquotient, hunit⟩

end LiveStyle
