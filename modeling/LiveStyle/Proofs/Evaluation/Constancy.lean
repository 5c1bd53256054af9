import LiveStyle.Proofs.Evaluation.Runs
import LiveStyle.Proofs.Spherical.Memory
import LiveStyle.Proofs.Tree.Containment
import LiveStyle.Proofs.Tree.Diagnosis

/-! # Constancy

Which values can change is settled by the terms: environment calls can, and calculations that
build and have an operand that can.  The flag that a node stores says just this, and it can be
trusted: what is constant reads nothing and has one value, over every source and for ever.
-/
namespace LiveStyle

theorem Builtin.ofName?_eq_some_iff {name : String} {f : Builtin} :
    ofName? name = some f ↔ name = f.name := by
  constructor
  · intro h
    unfold ofName? at h
    split at h <;> cases h <;> rfl
  · rintro rfl
    exact ofName?_name f

namespace Term

/-- A term whose value can change.  What does not build is not dynamic, whatever it mentions;
operators never are. -/
inductive Dynamic : Term → Prop
  | environment (arguments : List (List Term)) : Dynamic (.call "env" arguments)
  | calculation {terms : List Term} {term : Term} :
      alternates terms = true → term ∈ terms → Dynamic term → Dynamic (.call "calc" [terms])

theorem dynamic_call_iff {name : String} {arguments : List (List Term)} :
    (call name arguments).Dynamic ↔
      name = "env" ∨ name = "calc" ∧ ∃ terms, arguments = [terms] ∧ alternates terms = true ∧
        ∃ term ∈ terms, term.Dynamic := by
  constructor
  · intro h
    cases h with
    | environment => exact .inl rfl
    | calculation halternates hterm h => exact .inr ⟨rfl, _, rfl, halternates, _, hterm, h⟩
  · rintro (rfl | ⟨rfl, terms, rfl, halternates, term, hterm, h⟩)
    · exact .environment arguments
    · exact .calculation halternates hterm h

end Term

namespace Slot
open Node

/-- Whether an operand has a fixed value; an operator symbol has nothing that can change. -/
def isFixed : Slot → Bool
  | operand node => node.fixed?.isSome
  | operator _ => true

theorem isFixed_ofTerm (policy : DivisionPolicy) (term : Term) :
    (ofTerm policy term).isFixed = (leaf policy term).fixed?.isSome := by
  cases term <;> rfl

end Slot

namespace Node
open Slot

theorem isSome_fixed?_eq_all_reading (node : Node) :
    node.fixed?.isSome = node.reading.all isFixed := by
  induction node with
  | operator symbol left right policy memo ihl ihr =>
    rw [isSome_fixed?_operator, ihl, ihr, reading]
    simp [isFixed]
  | _ => simp [reading, isFixed]

theorem fixed?_eq_none_of_build {policy : DivisionPolicy} {terms : List Term} {tree : Node}
    (h : build policy (terms.map (Slot.ofTerm policy)) = .ok tree) :
    tree.fixed? = none ↔ ∃ term ∈ terms, (leaf policy term).fixed? = none := by
  have hfixed : tree.fixed?.isSome = terms.all fun term => (leaf policy term).fixed?.isSome := by
    rw [isSome_fixed?_eq_all_reading, reading_of_build h, readings_map_ofTerm, List.all_map]
    simp only [Function.comp_def, isFixed_ofTerm]
  rw [← Option.not_isSome_iff_eq_none, hfixed]
  simp

theorem fixed?_ofCalculation_eq_none_iff (policy : DivisionPolicy) (name : String)
    (arguments : List (List Term)) (log : Log) :
    (ofCalculation policy name arguments log).1.fixed? = none ↔
      ∃ terms, arguments = [terms] ∧ Term.alternates terms = true ∧
        ∃ term ∈ terms, (leaf policy term).fixed? = none := by
  by_cases hlength : arguments.length = 1
  · obtain ⟨terms, rfl⟩ := List.length_eq_one_iff.mp hlength
    rw [ofCalculation_fst]
    cases hbuild : build policy (terms.map (Slot.ofTerm policy)) with
    | error error =>
      refine iff_of_false (Option.some_ne_none _) ?_
      rintro ⟨_, ⟨⟩, halternates, -⟩
      obtain ⟨series, rfl⟩ := (Series.alternates_iff terms).mp halternates
      cases hbuild.symm.trans (build_terms policy series)
    | ok tree =>
      have halternates := (Series.alternates_iff terms).mpr (exists_series_of_build hbuild)
      rw [ofBuild, enclose, fixed?, fixed?_eq_none_of_build hbuild]
      constructor
      · exact fun h => ⟨terms, rfl, halternates, h⟩
      · rintro ⟨_, ⟨⟩, -, h⟩
        exact h
  · rw [ofCalculation_fst_of_length_ne_one policy name hlength]
    refine iff_of_false (Option.some_ne_none _) ?_
    rintro ⟨terms, rfl, -⟩
    exact absurd rfl hlength

theorem fixed?_leaf_eq_none_iff (policy : DivisionPolicy) (term : Term) :
    (leaf policy term).fixed? = none ↔ term.Dynamic := by
  induction term with
  | number quantity => exact iff_of_false (Option.some_ne_none _) nofun
  | identifier name => exact iff_of_false (Option.some_ne_none _) nofun
  | operator symbol => exact iff_of_false (Option.some_ne_none _) nofun
  | call name arguments ih =>
    rw [leaf, ofTerm, Term.dynamic_call_iff]
    rcases hname : Builtin.ofName? name with _ | _ | _
    · refine iff_of_false (Option.some_ne_none _) ?_
      rintro (rfl | ⟨rfl, -⟩) <;> cases hname
    · obtain rfl := Builtin.ofName?_eq_some_iff.mp hname
      simp only [fixed?_ofCalculation_eq_none_iff]
      constructor
      · rintro ⟨terms, rfl, halternates, term, hterm, hleaf⟩
        exact .inr ⟨rfl, terms, rfl, halternates, term, hterm, (ih _ (by simp) _ hterm).mp hleaf⟩
      · rintro (henv | ⟨-, terms, rfl, halternates, term, hterm, hdynamic⟩)
        · exact absurd henv (by decide)
        · exact ⟨terms, rfl, halternates, term, hterm, (ih _ (by simp) _ hterm).mpr hdynamic⟩
    · obtain rfl := Builtin.ofName?_eq_some_iff.mp hname
      exact ⟨fun _ => .inl rfl, fun _ => rfl⟩

theorem isConstant_ofTerm_eq_false_iff (policy : DivisionPolicy) (term : Term) (log : Log) :
    (ofTerm policy term log).1.isConstant = false ↔ term.Dynamic := by
  rw [ofTerm_fst, (coherent_leaf policy term).isConstant_eq, ← fixed?_leaf_eq_none_iff policy term]
  simp

/-- A node has no fixed value exactly when an environment node stands below it. -/
theorem fixed?_eq_none_iff_contains (node : Node) :
    node.fixed? = none ↔ ∃ identifier, node.Contains (environment identifier) := by
  induction node with
  | literal quantity => simp [fixed?]
  | environment identifier => simp [fixed?]
  | operator symbol left right policy memo ihl ihr =>
    have hnone : (operator symbol left right policy memo).fixed? = none ↔
        left.fixed? = none ∨ right.fixed? = none := by
      rw [← Option.not_isSome_iff_eq_none, isSome_fixed?_operator]
      cases left.fixed? <;> cases right.fixed? <;> simp
    simp only [hnone, ihl, ihr, contains_operator, reduceCtorEq, false_or, exists_or]
  | calculation inner memo ih =>
    simp only [fixed?, ih, contains_calculation, reduceCtorEq, false_or]
  | broken error memo => simp [fixed?]

/-- In every tree that can be reached, the flag of each node says whether an environment node
stands below it. -/
theorem Reached.isConstant_eq_false_iff {node below : Node} (h : Reached node)
    (hbelow : node.Contains below) :
    below.isConstant = false ↔ ∃ identifier, below.Contains (.environment identifier) := by
  obtain ⟨path, hpath⟩ := hbelow
  rw [(h.coherent.descend hpath).isConstant_eq, ← fixed?_eq_none_iff_contains]
  simp

/-- A constant node gives one value and reads nothing, whatever its tree goes through. -/
theorem Reached.evaluateAt_of_isConstant {node below : Node} {path : List Step}
    (h : Reached node) (hpath : descend? path node = some below)
    (hconstant : below.isConstant = true) :
    ∃ value, ∀ now, Later node now → ∀ (σ : Type) [ScrollSource σ] (host : Host σ),
      (evaluateAt path now host).value = some value ∧
        (evaluateAt path now host).host.source = host.source := by
  rw [(h.coherent.descend hpath).isConstant_eq] at hconstant
  obtain ⟨value, hvalue⟩ := Option.isSome_iff_exists.mp hconstant
  refine ⟨value, fun now hnow σ _ host => ?_⟩
  have hlive : liveAt path now host.source = (some value, host.source) := by
    rw [liveAt_congr hnow.forget_eq, liveAt, hpath]
    simp only [live_of_fixed? hvalue]
  rw [← evaluateAt_eq_liveAt (hnow.coherent h.coherent) path host] at hlive
  exact Prod.mk.inj hlive

/-- The nodes of a constant term give one value and read nothing, however they were logged when
they were built. -/
theorem evaluate_ofTerm_of_isConstant {policy : DivisionPolicy} {term : Term} {log : Log}
    (hconstant : (ofTerm policy term log).1.isConstant = true) :
    ∃ value, ∀ (log' : Log) (now : Node), (ofTerm policy term log').1.Later now →
      ∀ (σ : Type) [ScrollSource σ] (host : Host σ),
        (now.evaluate host).value = value ∧ (now.evaluate host).host.source = host.source := by
  have hroot : descend? [] (ofTerm policy term log).1 = some (ofTerm policy term log).1 := rfl
  obtain ⟨value, hvalue⟩ :=
    (Reached.term policy term log).evaluateAt_of_isConstant hroot hconstant
  refine ⟨value, fun log' now hnow σ _ host => ?_⟩
  rw [ofTerm_fst, ← ofTerm_fst policy term log] at hnow
  obtain ⟨hnow, hsource⟩ := hvalue now hnow σ host
  exact ⟨Option.some.inj hnow, hsource⟩

end Node

namespace Spherical

theorem isConstant_angle (policy : DivisionPolicy) (term : Option Term) (log : Log) :
    (angle policy term log).1.isConstant = true ↔ ∀ t ∈ term, ¬ t.Dynamic := by
  cases term with
  | none => exact ⟨nofun, fun _ => rfl⟩
  | some term =>
    have hterm := Node.isConstant_ofTerm_eq_false_iff policy term log
    simp [angle, ← hterm]

theorem isConstant_radius (policy : DivisionPolicy) (term : Option Term) (log : Log) :
    (RadiusTerm.ofTerm? policy term log).1.isConstant = true ↔
      ∀ t ∈ term, (∀ name, t ≠ .identifier name) → ¬ t.Dynamic := by
  cases term with
  | none => exact ⟨nofun, fun _ => rfl⟩
  | some term =>
    have hterm := Node.isConstant_ofTerm_eq_false_iff policy term log
    rw [Node.ofTerm_fst] at hterm
    rcases RadiusTerm.ofTerm?_cases policy term log with ⟨name, rfl, h⟩ | ⟨hname, h⟩
    · simp [h, RadiusTerm.isConstant]
    · simp [h, RadiusTerm.isConstant, ← hterm, hname]

theorem isConstant_ofExpressions (policy : DivisionPolicy) (expressions : List Expression)
    (log : Log) :
    let terms := expressions.headD []
    (ofExpressions policy expressions log).1.isConstant = true ↔
      (∀ term ∈ terms[0]?, ¬ term.Dynamic) ∧ (∀ term ∈ terms[1]?, ¬ term.Dynamic) ∧
        ∀ term ∈ terms[2]?, (∀ name, term ≠ .identifier name) → ¬ term.Dynamic := by
  intro terms
  have hand : (ofExpressions policy expressions log).1.isConstant =
      ((angle policy terms[0]? _).1.isConstant && (angle policy terms[1]? _).1.isConstant &&
        (RadiusTerm.ofTerm? policy terms[2]? _).1.isConstant) := rfl
  rw [hand, Bool.and_eq_true, Bool.and_eq_true, isConstant_angle, isConstant_angle,
    isConstant_radius, and_assoc]

theorem evaluate_ofExpressions_of_isConstant {policy : DivisionPolicy}
    {expressions : List Expression} {log : Log}
    (hconstant : (ofExpressions policy expressions log).1.isConstant = true) :
    ∃ value, ∀ (log' : Log) (now : Spherical), (ofExpressions policy expressions log').1.Later now →
      ∀ (σ : Type) [ScrollSource σ] (host : Host σ),
        (now.evaluate host).value = value ∧ (now.evaluate host).host.source = host.source := by
  have h := coherent_ofExpressions policy expressions log
  rw [h.isConstant_eq] at hconstant
  obtain ⟨value, hvalue⟩ := Option.isSome_iff_exists.mp hconstant
  refine ⟨value, fun log' now hnow σ _ host => ?_⟩
  rw [ofExpressions_fst policy expressions log' log] at hnow
  have hlive : now.live host.source = (value, host.source) := by
    rw [live_congr hnow.forget_eq, live_of_fixed? hvalue]
  have hfaithful := faithful_evaluate (hnow.coherent h) host
  rw [hfaithful.value_eq, hfaithful.source_eq, hlive]
  exact ⟨rfl, rfl⟩

end Spherical

/-- Constancy is exact: the flags of trees, of the nodes in them and of spherical values are those
of their terms and of the environment nodes that they contain.  And it is sound: what is constant
has one value, over all sources and whatever happens in between, and leaves every source alone. -/
theorem constancy_exact_and_sound :
    (∀ (policy : DivisionPolicy) (term : Term) (log : Log),
      (Node.ofTerm policy term log).1.isConstant = false ↔ term.Dynamic) ∧
    (∀ node below : Node, node.Reached → node.Contains below →
      (below.isConstant = false ↔ ∃ identifier, below.Contains (.environment identifier))) ∧
    (∀ (policy : DivisionPolicy) (expressions : List Expression) (log : Log),
      let terms := expressions.headD []
      (Spherical.ofExpressions policy expressions log).1.isConstant = true ↔
        (∀ term ∈ terms[0]?, ¬ term.Dynamic) ∧ (∀ term ∈ terms[1]?, ¬ term.Dynamic) ∧
          ∀ term ∈ terms[2]?, (∀ name, term ≠ .identifier name) → ¬ term.Dynamic) ∧
    (∀ (node below : Node) (path : List Node.Step), node.Reached →
      node.descend? path = some below → below.isConstant = true →
        ∃ value, ∀ now, node.Later now → ∀ (σ : Type) [ScrollSource σ] (host : Host σ),
          (now.evaluateAt path host).value = some value ∧
            (now.evaluateAt path host).host.source = host.source) ∧
    (∀ (policy : DivisionPolicy) (term : Term) (log : Log),
      (Node.ofTerm policy term log).1.isConstant = true →
        ∃ value, ∀ (log' : Log) (now : Node), (Node.ofTerm policy term log').1.Later now →
          ∀ (σ : Type) [ScrollSource σ] (host : Host σ),
            (now.evaluate host).value = value ∧
              (now.evaluate host).host.source = host.source) ∧
    (∀ (policy : DivisionPolicy) (expressions : List Expression) (log : Log),
      (Spherical.ofExpressions policy expressions log).1.isConstant = true →
        ∃ value, ∀ (log' : Log) (now : Spherical),
          (Spherical.ofExpressions policy expressions log').1.Later now →
            ∀ (σ : Type) [ScrollSource σ] (host : Host σ),
              (now.evaluate host).value = value ∧
                (now.evaluate host).host.source = host.source) := by
  refine ⟨Node.isConstant_ofTerm_eq_false_iff, ?_, Spherical.isConstant_ofExpressions, ?_, ?_, ?_⟩
  · exact fun node below hnode hbelow => hnode.isConstant_eq_false_iff hbelow
  · exact fun node below path hnode hpath hconstant =>
      hnode.evaluateAt_of_isConstant hpath hconstant
  · exact fun policy term log hconstant => Node.evaluate_ofTerm_of_isConstant hconstant
  · exact fun policy expressions log hconstant =>
      Spherical.evaluate_ofExpressions_of_isConstant hconstant

/-- A fixed length scaled by the scroll progress: the product can change and the length cannot. -/
theorem constancy_exact_and_sound_scaled :
    let length := Term.call "calc"
      [[.number ⟨1, some .metre⟩, .operator "+", .number ⟨50, some .centimetre⟩]]
    let progress := Term.call "env" [[.identifier "window-scroll-y"]]
    let scaled := Term.call "calc" [[length, .operator "*", progress]]
    let node := (Node.ofTerm .zero scaled #[]).1
    let expressions := [[length, length, .identifier "auto"]]
    scaled.Dynamic ∧ node.isConstant = false ∧
      (∃ identifier, node.Contains (.environment identifier)) ∧
      (∃ value, ∀ now, node.Later now → ∀ (σ : Type) [ScrollSource σ] (host : Host σ),
        (now.evaluateAt [.inner, .left] host).value = some value ∧
          (now.evaluateAt [.inner, .left] host).host.source = host.source) ∧
      (∃ value, ∀ (log : Log) (now : Node), (Node.ofTerm .zero length log).1.Later now →
        ∀ (σ : Type) [ScrollSource σ] (host : Host σ),
          (now.evaluate host).value = value ∧ (now.evaluate host).host.source = host.source) ∧
      ∃ value, ∀ (log : Log) (now : Spherical),
        (Spherical.ofExpressions .zero expressions log).1.Later now →
          ∀ (σ : Type) [ScrollSource σ] (host : Host σ),
            (now.evaluate host).value = value ∧
              (now.evaluate host).host.source = host.source := by
  intro length progress scaled node expressions
  obtain ⟨hterm, hflag, -, hnode, hconstant, hspherical⟩ := constancy_exact_and_sound
  have hprogress : progress.Dynamic := .environment _
  have hscaled : scaled.Dynamic := .calculation rfl (by simp) hprogress
  have hreached : node.Reached := .term .zero scaled #[]
  have hchanging : node.isConstant = false := (hterm .zero scaled #[]).mpr hscaled
  refine ⟨hscaled, hchanging, (hflag node node hreached ⟨[], rfl⟩).mp hchanging, ?_, ?_, ?_⟩
  · exact hnode node (Node.leaf .zero length) [.inner, .left] hreached rfl rfl
  · exact hconstant .zero length #[] rfl
  · exact hspherical .zero expressions #[] rfl

end LiveStyle
