import LiveStyle.Proofs.Evaluation.Interchange
import LiveStyle.Proofs.Spherical.Memory

/-! # Components in the place of others

A spherical value sees its components through their nodes, except for the keyword that an identifier
is in the place of the radius.  So terms with interchangeable nodes can be written for each other
wherever they are evaluated: as operands of calculations to any depth, and as components.
-/
namespace LiveStyle

namespace Spherical

/-- Expressions with the place of one term of the first one left open. -/
structure Frame where
  before : List Term
  after : List Term
  others : List Expression

def Frame.expressions (frame : Frame) (component : Term) : List Expression :=
  (frame.before ++ component :: frame.after) :: frame.others

structure Interchangeable (s t : Spherical) : Prop where
  fixed?_eq : s.fixed? = t.fixed?
  live_eq : ∀ (σ : Type) [ScrollSource σ] (source : σ), s.live source = t.live source

structure AnswerAlike (s t : Spherical) : Prop where
  isConstant_eq : s.isConstant = t.isConstant
  evaluate_eq : ∀ now now' : Spherical, s.Later now → t.Later now' →
    ∀ (σ : Type) [ScrollSource σ] (host other : Host σ), host.source = other.source →
      (now.evaluate host).value = (now'.evaluate other).value ∧
        (now.evaluate host).host.source = (now'.evaluate other).host.source

theorem Interchangeable.answerAlike {s t : Spherical} (h : s.Interchangeable t)
    (hs : s.Coherent) (ht : t.Coherent) : s.AnswerAlike t where
  isConstant_eq := by rw [hs.isConstant_eq, ht.isConstant_eq, h.fixed?_eq]
  evaluate_eq now now' hnow hnow' σ _ host other hsource := by
    have hleft := faithful_evaluate (hnow.coherent hs) host
    have hright := faithful_evaluate (hnow'.coherent ht) other
    rw [hleft.value_eq, hleft.source_eq, hright.value_eq, hright.source_eq,
      live_congr hnow.forget_eq, live_congr hnow'.forget_eq, h.live_eq, hsource]
    exact ⟨rfl, rfl⟩

section Components
variable (policy : DivisionPolicy) {a b : Term}

/-- A list has the same term at every position but one. -/
theorem getElem?_insert (before after : List Term) (a b : Term) (i : Nat) :
    (before ++ a :: after)[i]? = (before ++ b :: after)[i]? ∨
      i = before.length ∧ (before ++ a :: after)[i]? = some a ∧
        (before ++ b :: after)[i]? = some b := by
  rcases Nat.lt_trichotomy i before.length with hi | rfl | hi
  · left
    rw [List.getElem?_append_left hi, List.getElem?_append_left hi]
  · exact .inr ⟨rfl, by simp, by simp⟩
  · left
    obtain ⟨k, rfl⟩ := Nat.exists_eq_add_of_lt hi
    rw [List.getElem?_append_right (by omega), List.getElem?_append_right (by omega)]
    have hk : before.length + k + 1 - before.length = k + 1 := by omega
    rw [hk, List.getElem?_cons_succ, List.getElem?_cons_succ]

theorem interchangeable_angle (h : (Node.leaf policy a).Interchangeable (Node.leaf policy b))
    (before after : List Term) (i : Nat) :
    (angle policy (before ++ a :: after)[i]? #[]).1.Interchangeable
      (angle policy (before ++ b :: after)[i]? #[]).1 := by
  rcases getElem?_insert before after a b i with hsame | ⟨-, ha, hb⟩
  · rw [hsame]
    exact .refl _
  · rw [ha, hb]
    exact h

/-- A radius that is not a keyword is seen through its node as well. -/
theorem interchangeable_radius (h : (Node.leaf policy a).Interchangeable (Node.leaf policy b))
    (before after : List Term) {i : Nat}
    (hname : before.length = i → (∀ name, a ≠ .identifier name) ∧ ∀ name, b ≠ .identifier name) :
    let r := (RadiusTerm.ofTerm? policy (before ++ a :: after)[i]? #[]).1
    let r' := (RadiusTerm.ofTerm? policy (before ++ b :: after)[i]? #[]).1
    r.fixed? = r'.fixed? ∧ ∀ (σ : Type) [ScrollSource σ] (source : σ),
      r.live source = r'.live source := by
  rcases getElem?_insert before after a b i with hsame | ⟨hi, ha, hb⟩
  · rw [hsame]
    exact ⟨rfl, fun _ _ _ => rfl⟩
  · have hlength {term : Term} (hterm : ∀ name, term ≠ .identifier name) :
        (RadiusTerm.ofTerm? policy (some term) #[]).1 = .length (Node.leaf policy term) := by
      rcases RadiusTerm.ofTerm?_cases policy term #[] with ⟨name, heq, -⟩ | ⟨-, hterm⟩
      · exact absurd heq (hterm name)
      · exact hterm
    rw [ha, hb, hlength (hname hi.symm).1, hlength (hname hi.symm).2]
    refine ⟨?_, fun σ _ source => ?_⟩
    · simp only [RadiusTerm.fixed?, h.fixed?_eq]
    · simp only [RadiusTerm.live, h.live_eq]

theorem interchangeable_ofExpressions
    (h : (Node.leaf policy a).Interchangeable (Node.leaf policy b)) (frame : Frame)
    (hname : frame.before.length = 2 →
      (∀ name, a ≠ .identifier name) ∧ ∀ name, b ≠ .identifier name) (log log' : Log) :
    (ofExpressions policy (frame.expressions a) log).1.Interchangeable
      (ofExpressions policy (frame.expressions b) log').1 := by
  have hazimuth := interchangeable_angle policy h frame.before frame.after 0
  have hinclination := interchangeable_angle policy h frame.before frame.after 1
  obtain ⟨hfixed, hlive⟩ := interchangeable_radius policy h frame.before frame.after hname
  simp only [ofExpressions, ofTerms_fst, Frame.expressions, List.headD_cons]
  constructor
  · simp only [ofComponents, fixed?, hazimuth.fixed?_eq, hinclination.fixed?_eq, hfixed]
  · intro σ _ source
    simp only [ofComponents, live, hazimuth.live_eq, hinclination.live_eq, hlive]

end Components
end Spherical

namespace Term
open Node

/-- Wherever `a` is evaluated, `b` can be written for it.  No build error changes, no tree changes
but in the place of the operand, and no evaluation of what is around them tells them apart. -/
structure Exchangeable (policy : DivisionPolicy) (a b : Term) : Prop where
  alone : ∀ log log' : Log, (ofTerm policy a log).1.AnswerAlike (ofTerm policy b log').1
  operand : a.symbol? = none → b.symbol? = none →
    ∀ (name : String) (frame : Frame) (frames : List Frame) (log log' : Log),
      let m := (ofCalculation policy name (frame.arguments (within frames a)) log).1
      let n := (ofCalculation policy name (frame.arguments (within frames b)) log').1
      m.buildError? = n.buildError? ∧ SameBut (leaf policy a) (leaf policy b) m n ∧
        m.AnswerAlike n
  component : ∀ frame : Spherical.Frame,
    (frame.before.length = 2 → (∀ name, a ≠ identifier name) ∧ ∀ name, b ≠ identifier name) →
      ∀ log log' : Log, (Spherical.ofExpressions policy (frame.expressions a) log).1.AnswerAlike
        (Spherical.ofExpressions policy (frame.expressions b) log').1
  operandOfComponent : a.symbol? = none → b.symbol? = none →
    ∀ (frame : Spherical.Frame) (outer : Frame) (frames : List Frame) (log log' : Log),
      (Spherical.ofExpressions policy (frame.expressions (within (outer :: frames) a))
        log).1.AnswerAlike
        (Spherical.ofExpressions policy (frame.expressions (within (outer :: frames) b)) log').1

theorem exchangeable_of_interchangeable {policy : DivisionPolicy} {a b : Term}
    (h : (leaf policy a).Interchangeable (leaf policy b)) : a.Exchangeable policy b where
  alone log log' := by
    rw [ofTerm_fst, ofTerm_fst]
    exact h.answerAlike (coherent_leaf policy a) (coherent_leaf policy b)
  operand ha hb name frame frames log log' := by
    have hsame := within_sameBut policy ha hb frames
    obtain ⟨hbut, herror⟩ := arguments_sameBut policy name frame (symbol?_within frames ha)
      (symbol?_within frames hb) hsame log log'
    refine ⟨herror, hbut, (hbut.interchangeable h).answerAlike ?_ ?_⟩
    · exact coherent_ofCalculation policy name _ log
    · exact coherent_ofCalculation policy name _ log'
  component frame hname log log' :=
    (Spherical.interchangeable_ofExpressions policy h frame hname log log').answerAlike
      (Spherical.coherent_ofExpressions policy _ log)
      (Spherical.coherent_ofExpressions policy _ log')
  operandOfComponent ha hb frame outer frames log log' := by
    have hwithin := (within_sameBut policy ha hb (outer :: frames)).interchangeable h
    refine (Spherical.interchangeable_ofExpressions policy hwithin frame ?_ log log').answerAlike
      (Spherical.coherent_ofExpressions policy _ log)
      (Spherical.coherent_ofExpressions policy _ log')
    exact fun _ => ⟨nofun, nofun⟩

end Term
end LiveStyle
