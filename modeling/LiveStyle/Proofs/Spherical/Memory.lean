import LiveStyle.Proofs.Evaluation.Memory
import LiveStyle.Spherical.Evaluate

/-! # The memory of spherical values

A spherical value has a memory of its own above those of its components.  It is in order when
theirs are, and its own agrees with the value that the components fix together.  Then an
evaluation gives the live value, which reads the radius first, and keeps memory in order.
-/
namespace LiveStyle

namespace RadiusTerm

def live {σ : Type} [ScrollSource σ] : RadiusTerm → σ → Radius × σ
  | keyword name, source => (.keyword name, source)
  | length node, source =>
    let l := node.live source
    (.metres l.1.toBase.number, l.2)

/-- The radius that needs no reading. -/
def fixed? : RadiusTerm → Option Radius
  | keyword name => some (.keyword name)
  | length node => node.fixed?.map fun q => .metres q.toBase.number

def forget : RadiusTerm → RadiusTerm
  | keyword name => keyword name
  | length node => length node.forget

def Coherent : RadiusTerm → Prop
  | keyword _ => True
  | length node => node.Coherent

theorem Coherent.isConstant_eq {radius : RadiusTerm} (h : radius.Coherent) :
    radius.isConstant = radius.fixed?.isSome := by
  cases radius with
  | keyword name => rfl
  | length node =>
    rw [isConstant, Node.Coherent.isConstant_eq h, fixed?, Option.isSome_map]

theorem fixed?_congr {a b : RadiusTerm} (h : a.forget = b.forget) : a.fixed? = b.fixed? := by
  cases a with
  | keyword name =>
    cases b with
    | keyword other =>
      cases h
      rfl
    | length node => cases h
  | length node =>
    cases b with
    | keyword other => cases h
    | length other =>
      injection h with h
      rw [fixed?, fixed?, Node.fixed?_congr h]

theorem ofTerm?_cases (policy : DivisionPolicy) (term : Term) (log : Log) :
    (∃ name, term = .identifier name ∧ (ofTerm? policy (some term) log).1 = keyword name) ∨
      (∀ name, term ≠ .identifier name) ∧
        (ofTerm? policy (some term) log).1 = length (Node.leaf policy term) := by
  cases term with
  | identifier name => exact .inl ⟨name, rfl, rfl⟩
  | _ => exact .inr ⟨nofun, by simp only [ofTerm?, Node.ofTerm_fst]⟩

theorem coherent_ofTerm? (policy : DivisionPolicy) (term : Option Term) (log : Log) :
    (ofTerm? policy term log).1.Coherent := by
  cases term with
  | none => trivial
  | some term =>
    rcases ofTerm?_cases policy term log with ⟨name, -, h⟩ | ⟨-, h⟩
    · rw [h]
      trivial
    · rw [h]
      exact Node.coherent_leaf policy term

variable {σ : Type} [ScrollSource σ]

theorem live_of_fixed? {radius : RadiusTerm} {value : Radius} (h : radius.fixed? = some value)
    (source : σ) : radius.live source = (value, source) := by
  cases radius with
  | keyword name =>
    cases h
    rfl
  | length node =>
    obtain ⟨quantity, hnode, rfl⟩ := Option.map_eq_some_iff.mp h
    rw [live, Node.live_of_fixed? hnode]

theorem live_congr {a b : RadiusTerm} (h : a.forget = b.forget) (source : σ) :
    a.live source = b.live source := by
  cases a with
  | keyword name =>
    cases b with
    | keyword other =>
      cases h
      rfl
    | length node => cases h
  | length node =>
    cases b with
    | keyword other => cases h
    | length other =>
      injection h with h
      rw [live, live, Node.live_congr h]

@[simp] theorem forget_evaluate (radius : RadiusTerm) (host : Host σ) :
    (radius.evaluate host).next.forget = radius.forget := by
  cases radius with
  | keyword name => rfl
  | length node => simp only [evaluate, forget, Node.forget_evaluate]

structure Faithful (radius : RadiusTerm) (source : σ) (o : Outcome RadiusTerm Radius σ) :
    Prop where
  value_eq : o.value = (radius.live source).1
  source_eq : o.host.source = (radius.live source).2
  coherent : o.next.Coherent

theorem faithful_evaluate {radius : RadiusTerm} (h : radius.Coherent) (host : Host σ) :
    Faithful radius host.source (radius.evaluate host) := by
  cases radius with
  | keyword name => exact ⟨rfl, rfl, trivial⟩
  | length node =>
    have hnode := Node.faithful_evaluate h host
    constructor
    · simp only [evaluate, live, hnode.value_eq]
    · exact hnode.source_eq
    · exact hnode.coherent

end RadiusTerm

namespace Spherical

def live {σ : Type} [ScrollSource σ] (s : Spherical) (source : σ) : SphericalValue × σ :=
  let r := s.radius.live source
  let a := s.azimuth.live r.2
  let i := s.inclination.live a.2
  (⟨a.1.toBase.number, i.1.toBase.number, r.1⟩, i.2)

def fixed? (s : Spherical) : Option SphericalValue :=
  match s.radius.fixed?, s.azimuth.fixed?, s.inclination.fixed? with
  | some r, some a, some i => some ⟨a.toBase.number, i.toBase.number, r⟩
  | _, _, _ => none

def forget (s : Spherical) : Spherical :=
  ⟨s.azimuth.forget, s.inclination.forget, s.radius.forget, .fresh s.memo.constant⟩

structure Coherent (s : Spherical) : Prop where
  azimuth : s.azimuth.Coherent
  inclination : s.inclination.Coherent
  radius : s.radius.Coherent
  memo : s.memo.Fits s.fixed?

theorem isSome_fixed? (s : Spherical) :
    s.fixed?.isSome =
      (s.azimuth.fixed?.isSome && s.inclination.fixed?.isSome && s.radius.fixed?.isSome) := by
  rw [fixed?]
  cases s.radius.fixed? <;> cases s.azimuth.fixed? <;> cases s.inclination.fixed? <;> rfl

theorem Coherent.isConstant_eq {s : Spherical} (h : s.Coherent) :
    s.isConstant = s.fixed?.isSome :=
  h.memo.constant_eq

/-- The log shows in no component. -/
theorem ofTerms_fst (policy : DivisionPolicy) (terms : List Term) (log : Log) :
    (ofTerms policy terms log).1 =
      ofComponents (angle policy terms[0]? #[]).1 (angle policy terms[1]? #[]).1
        (RadiusTerm.ofTerm? policy terms[2]? #[]).1 := by
  have hangle (term : Option Term) (log : Log) :
      (angle policy term log).1 = (angle policy term #[]).1 := by
    cases term with
    | none => rfl
    | some term => rw [angle, angle, Node.ofTerm_fst, Node.ofTerm_fst]
  have hradius (term : Option Term) (log : Log) :
      (RadiusTerm.ofTerm? policy term log).1 = (RadiusTerm.ofTerm? policy term #[]).1 := by
    rcases term with _ | _ | _ | _ | _ <;>
      simp only [RadiusTerm.ofTerm?, Node.ofTerm_fst]
  simp only [ofTerms, hangle, hradius]

theorem ofExpressions_fst (policy : DivisionPolicy) (expressions : List Expression)
    (log log' : Log) :
    (ofExpressions policy expressions log).1 = (ofExpressions policy expressions log').1 := by
  rw [ofExpressions, ofExpressions, ofTerms_fst, ofTerms_fst]

theorem coherent_ofComponents {azimuth inclination : Node} {radius : RadiusTerm}
    (ha : azimuth.Coherent) (hi : inclination.Coherent) (hr : radius.Coherent) :
    (ofComponents azimuth inclination radius).Coherent := by
  refine ⟨ha, hi, hr, Memo.fits_fresh ?_⟩
  rw [isSome_fixed?]
  simp only [ofComponents, ha.isConstant_eq, hi.isConstant_eq, hr.isConstant_eq]

theorem coherent_angle (policy : DivisionPolicy) (term : Option Term) (log : Log) :
    (angle policy term log).1.Coherent := by
  cases term with
  | none => trivial
  | some term =>
    rw [angle, Node.ofTerm_fst]
    exact Node.coherent_leaf policy term

theorem coherent_ofExpressions (policy : DivisionPolicy) (expressions : List Expression)
    (log : Log) : (ofExpressions policy expressions log).1.Coherent :=
  coherent_ofComponents (coherent_angle policy _ _) (coherent_angle policy _ _)
    (RadiusTerm.coherent_ofTerm? policy _ _)

theorem fixed?_congr {s t : Spherical} (h : s.forget = t.forget) : s.fixed? = t.fixed? := by
  injection h with ha hi hr _
  rw [fixed?, fixed?, Node.fixed?_congr ha, Node.fixed?_congr hi, RadiusTerm.fixed?_congr hr]

variable {σ : Type} [ScrollSource σ]

theorem live_congr {s t : Spherical} (h : s.forget = t.forget) (source : σ) :
    s.live source = t.live source := by
  injection h with ha hi hr _
  simp only [live, RadiusTerm.live_congr hr, Node.live_congr ha, Node.live_congr hi]

theorem live_of_fixed? {s : Spherical} {value : SphericalValue} (h : s.fixed? = some value)
    (source : σ) : s.live source = (value, source) := by
  rw [fixed?] at h
  split at h
  next r a i hr ha hi =>
    cases h
    simp only [live, RadiusTerm.live_of_fixed? hr, Node.live_of_fixed? ha,
      Node.live_of_fixed? hi]
  next => cases h

theorem fits_keep_live {s : Spherical} (h : s.memo.Fits s.fixed?) (source : σ) :
    (s.memo.keep (s.live source).1).Fits s.fixed? := by
  apply h.keep
  intro hconstant
  obtain ⟨value, hvalue⟩ := Option.isSome_iff_exists.mp (h.constant_eq ▸ hconstant)
  rw [hvalue, live_of_fixed? hvalue]

theorem evaluate_of_remembered {s : Spherical} {value : SphericalValue}
    (h : s.memo.remembered = some value) (host : Host σ) :
    s.evaluate host = ⟨value, s, host.note .cacheHit⟩ := by
  rw [evaluate, h]

theorem evaluate_of_forgotten {s : Spherical} (h : s.memo.remembered = none) (host : Host σ) :
    s.evaluate host =
      let r := s.radius.evaluate host
      let a := s.azimuth.evaluate r.host
      let i := s.inclination.evaluate a.host
      let value := ⟨a.value.toBase.number, i.value.toBase.number, r.value⟩
      ⟨value, ⟨a.next, i.next, r.next, s.memo.keep value⟩, i.host⟩ := by
  rw [evaluate, h]

@[simp] theorem forget_evaluate (s : Spherical) (host : Host σ) :
    (s.evaluate host).next.forget = s.forget := by
  cases h : s.memo.remembered with
  | some value => rw [evaluate_of_remembered h]
  | none =>
    rw [evaluate_of_forgotten h]
    simp only [forget, Node.forget_evaluate, RadiusTerm.forget_evaluate, Memo.keep_constant]

structure Faithful (s : Spherical) (source : σ) (o : Outcome Spherical SphericalValue σ) :
    Prop where
  value_eq : o.value = (s.live source).1
  source_eq : o.host.source = (s.live source).2
  coherent : o.next.Coherent

theorem faithful_evaluate {s : Spherical} (h : s.Coherent) (host : Host σ) :
    Faithful s host.source (s.evaluate host) := by
  cases hremembered : s.memo.remembered with
  | some value =>
    have hlive := live_of_fixed? (h.memo.remembered_eq hremembered) host.source
    rw [evaluate_of_remembered hremembered]
    exact ⟨by rw [hlive], by rw [hlive]; rfl, h⟩
  | none =>
    have hr := RadiusTerm.faithful_evaluate h.radius host
    have ha := Node.faithful_evaluate h.azimuth (s.radius.evaluate host).host
    have hi := Node.faithful_evaluate h.inclination
      (s.azimuth.evaluate (s.radius.evaluate host).host).host
    have hvalue : (s.evaluate host).value = (s.live host.source).1 := by
      rw [evaluate_of_forgotten hremembered]
      simp only [live, hr.value_eq, ha.value_eq, hi.value_eq, hr.source_eq, ha.source_eq]
    have hforget := forget_evaluate s host
    have hmemo := fits_keep_live h.memo host.source
    rw [← hvalue, ← fixed?_congr hforget] at hmemo
    rw [evaluate_of_forgotten hremembered] at hvalue hmemo ⊢
    refine ⟨hvalue, ?_, ha.coherent, hi.coherent, hr.coherent, hmemo⟩
    simp only [live, hi.source_eq, ha.source_eq, hr.source_eq]

/-- What a spherical value can become: evaluated any number of times, over any sources. -/
inductive Later (first : Spherical) : Spherical → Prop
  | now : Later first first
  | evaluated {τ : Type} [ScrollSource τ] (host : Host τ) {s : Spherical} :
      Later first s → Later first (s.evaluate host).next

theorem Later.forget_eq {first s : Spherical} (h : Later first s) : s.forget = first.forget := by
  induction h with
  | now => rfl
  | evaluated host _ ih => rw [forget_evaluate, ih]

theorem Later.coherent {first s : Spherical} (h : Later first s) (hfirst : first.Coherent) :
    s.Coherent := by
  induction h with
  | now => exact hfirst
  | evaluated host _ ih => exact (faithful_evaluate ih host).coherent

end Spherical
end LiveStyle
