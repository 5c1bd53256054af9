import LiveStyle.Proofs.Evaluation.LiteralUnits
import LiveStyle.Proofs.Spherical.Sampling

/-! # Spherical values in other units

A spherical value restates its components in base units, so that nothing of the units of literals
is left in it.
-/
namespace LiveStyle

theorem rel_getElem?_of_forall₂ {α β : Type} {R : α → β → Prop} {l : List α} {l' : List β}
    (h : List.Forall₂ R l l') (i : Nat) : Option.Rel R l[i]? l'[i]? := by
  induction h generalizing i with
  | nil => exact .none
  | cons hhead _ ih =>
    cases i with
    | zero => exact .some hhead
    | succ i =>
      rw [List.getElem?_cons_succ, List.getElem?_cons_succ]
      exact ih i

namespace Spherical

def SameInBase (expressions expressions' : List Expression) : Prop :=
  List.Forall₂ (List.Forall₂ Term.SameInBase) expressions expressions'

theorem sameInBase_toBase (expressions : List Expression) :
    SameInBase expressions (expressions.map (List.map Term.toBase)) := by
  refine List.forall₂_map_right_iff.mpr (List.forall₂_same.mpr fun terms _ => ?_)
  exact List.forall₂_map_right_iff.mpr
    (List.forall₂_same.mpr fun term _ => term.sameInBase_toBase)

section TwoRuns
variable {a b : Option Term} {σ : Type} [ScrollSource σ] (policy : DivisionPolicy)

theorem sameInBase_angle (h : Option.Rel Term.SameInBase a b) (log log' : Log) :
    (angle policy a log).1.SameInBase (angle policy b log').1 := by
  cases h with
  | none => exact .literal rfl
  | some h =>
    rw [angle, angle, Node.ofTerm_fst, Node.ofTerm_fst]
    exact Node.sameInBase_leaf policy h

/-- A radius is a keyword in both or a length in both, which is restated in metres. -/
theorem live_radius (h : Option.Rel Term.SameInBase a b) (log log' : Log) (source : σ) :
    (RadiusTerm.ofTerm? policy a log).1.live source =
      (RadiusTerm.ofTerm? policy b log').1.live source := by
  cases h with
  | none => rfl
  | @some a b h =>
    rcases RadiusTerm.ofTerm?_cases policy a log with ⟨name, rfl, -⟩ | ⟨ha, hradius⟩
    · cases h
      rfl
    · rcases RadiusTerm.ofTerm?_cases policy b log' with ⟨name, rfl, -⟩ | ⟨-, hradius'⟩
      · cases h
        exact absurd rfl (ha name)
      · have hnodes := Node.sameInBase_leaf policy h
        rw [hradius, hradius', RadiusTerm.live, RadiusTerm.live, hnodes.toBase_live,
          hnodes.live_snd]

/-- The live value does not depend on the units of literals. -/
theorem live_ofExpressions {expressions expressions' : List Expression}
    (h : SameInBase expressions expressions') (log log' : Log) (source : σ) :
    (ofExpressions policy expressions log).1.live source =
      (ofExpressions policy expressions' log').1.live source := by
  have hterms : List.Forall₂ Term.SameInBase (expressions.headD []) (expressions'.headD []) := by
    cases h with
    | nil => exact .nil
    | cons hterms _ => exact hterms
  have hazimuth := sameInBase_angle policy (rel_getElem?_of_forall₂ hterms 0) #[] #[]
  have hinclination := sameInBase_angle policy (rel_getElem?_of_forall₂ hterms 1) #[] #[]
  have hradius := live_radius policy (rel_getElem?_of_forall₂ hterms 2) #[] #[] source
  simp only [ofExpressions, ofTerms_fst, ofComponents, live, hradius, hazimuth.toBase_live,
    hazimuth.live_snd, hinclination.toBase_live, hinclination.live_snd]

/-- Neither does any evaluation. -/
theorem Later.evaluate_eq {expressions expressions' : List Expression} {log log' : Log}
    {now now' : Spherical} (h : SameInBase expressions expressions')
    (hnow : (ofExpressions policy expressions log).1.Later now)
    (hnow' : (ofExpressions policy expressions' log').1.Later now') {host other : Host σ}
    (hsource : host.source = other.source) :
    ((now.evaluate host).value, (now.evaluate host).host.source) =
      ((now'.evaluate other).value, (now'.evaluate other).host.source) := by
  rw [hnow.evaluate_eq_live, hnow'.evaluate_eq_live, hsource]
  exact live_ofExpressions policy h log log' other.source

end TwoRuns
end Spherical

/-- The unit in which a literal is written does not matter.  Terms whose literals are equal in base
units, as those of a term and of its restatement are, become trees of one shape that agree at every
place and at any time: in build errors, constancy, what they read and how they fault, in the values
of operators, and up to base units in all values.  Spherical values of such terms are equal. -/
theorem literal_units_immaterial :
    (∀ q : Quantity, q.toBase.toBase = q.toBase) ∧
    (∀ term : Term, term.SameInBase term.toBase) ∧
    (∀ (policy : DivisionPolicy) (a b : Term) (log log' : Log), a.SameInBase b →
      let m := (Node.ofTerm policy a log).1
      let n := (Node.ofTerm policy b log').1
      m.SameInBase n ∧
        ∀ now now' : Node, m.Later now → n.Later now' → ∀ path,
          Option.Rel Node.AgreeInBase (now.descend? path) (now'.descend? path)) ∧
    (∀ expressions : List Expression,
      Spherical.SameInBase expressions (expressions.map (List.map Term.toBase))) ∧
    (∀ (policy : DivisionPolicy) (expressions expressions' : List Expression) (log log' : Log),
      Spherical.SameInBase expressions expressions' →
        ∀ now now' : Spherical, (Spherical.ofExpressions policy expressions log).1.Later now →
          (Spherical.ofExpressions policy expressions' log').1.Later now' →
            ∀ (σ : Type) [ScrollSource σ] (host other : Host σ), host.source = other.source →
              (now.evaluate host).value = (now'.evaluate other).value ∧
                (now.evaluate host).host.source = (now'.evaluate other).host.source) := by
  refine ⟨Quantity.toBase_toBase, Term.sameInBase_toBase, ?_, Spherical.sameInBase_toBase, ?_⟩
  · intro policy a b log log' h m n
    have hsame : m.SameInBase n := by
      simp only [m, n, Node.ofTerm_fst]
      exact Node.sameInBase_leaf policy h
    refine ⟨hsame, fun now now' hnow hnow' path => ?_⟩
    exact Node.Matches.rel_descend hsame (.term policy a log) (.term policy b log')
      Node.SameInBase.agree hnow hnow' path
  · intro policy expressions expressions' log log' h now now' hnow hnow' σ _ host other hsource
    exact Prod.mk.inj (Spherical.Later.evaluate_eq policy h hnow hnow' hsource)

/-- Half a metre in centimetres and in millimetres, added to the scroll progress; the second tree
has been evaluated before. -/
theorem literal_units_immaterial_half :
    let sum := fun half : Quantity => Term.call "calc"
      [[.number half, .operator "+", .call "env" [[.identifier "window-scroll-y"]]]]
    let a := sum ⟨50, some .centimetre⟩
    let b := sum ⟨500, some .millimetre⟩
    let host : Host Recording := ⟨Recording.start ⟨50, 500, 100⟩, #[]⟩
    let m := (Node.ofTerm .zero a #[]).1
    let n := ((Node.ofTerm .zero b #[]).1.evaluateAt [] host).next
    let s := (Spherical.ofExpressions .zero [[.number .zero, a, b]] #[]).1
    let t := (Spherical.ofExpressions .zero [[.number .zero, b, a]] #[]).1
    a.SameInBase b ∧ (m.evaluate host).value.toBase = (n.evaluate host).value.toBase ∧
      m.valueAt? [.inner] host = n.valueAt? [.inner] host ∧
      (s.evaluate host).value = (t.evaluate host).value := by
  intro sum a b host m n s t
  obtain ⟨-, -, hterms, -, hspherical⟩ := literal_units_immaterial
  have hsum (p q : Quantity) (hbase : p.toBase = q.toBase) : (sum p).SameInBase (sum q) := by
    refine .call "calc" (.cons (.cons (.number hbase) (.cons (.operator "+") (.cons ?_ .nil))) .nil)
    exact .call "env" (.cons (.cons (.identifier _) .nil) .nil)
  have hhalf : Quantity.toBase ⟨50, some .centimetre⟩ =
      Quantity.toBase ⟨500, some .millimetre⟩ := by decide +kernel
  have hab : a.SameInBase b := hsum _ _ hhalf
  have hba : b.SameInBase a := hsum _ _ hhalf.symm
  have hplaces := (hterms .zero a b #[] #[] hab).2 m n .now (.evaluated [] host .now)
  have hroot : m.AgreeInBase n := by
    cases hplaces [] with
    | some hagree => exact hagree
  refine ⟨hab, hroot.toBase_value_eq Recording host host rfl, ?_, ?_⟩
  · have hinner : m.descend? [.inner] =
        some (.join .zero "+" (.literal ⟨50, some .centimetre⟩)
          (.environment (some "window-scroll-y"))) := rfl
    have harrival := hroot.arrival_eq Recording host host rfl [.inner]
    have hplace := hplaces [.inner]
    unfold Node.valueAt?
    rw [hinner] at hplace ⊢
    generalize n.descend? [.inner] = below at hplace ⊢
    cases hplace with
    | some hagree => exact congrArg some (hagree.value_eq rfl Recording _ _ harrival)
  · refine (hspherical .zero _ _ #[] #[] ?_ s t .now .now Recording host host rfl).1
    exact .cons (.cons (.number rfl) (.cons hab (.cons hba .nil))) .nil

end LiveStyle
