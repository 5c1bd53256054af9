import LiveStyle.Proofs.Evaluation.Constancy
import LiveStyle.Proofs.Spherical.Sampling

/-! # The values of spherical expressions

Every evaluation in a run gives what the first three terms are worth now: the radius, which is a
keyword or a length, and then the two angles, each in base units and read from where the one before
has left the source.  Nothing else that is written has a part in it, and a keyword is none of the
values that the other components can have.
-/
namespace LiveStyle

namespace Spherical

section Now
variable {σ : Type} [ScrollSource σ] (policy : DivisionPolicy)

def angleNow : Option Term → σ → Float × σ
  | none, source => (0, source)
  | some term, source =>
    let l := (Node.leaf policy term).live source
    (l.1.toBase.number, l.2)

/-- The radius now: an identifier as it stands, `auto` in place of none, and else a length. -/
def radiusNow : Option Term → σ → Radius × σ
  | none, source => (.keyword "auto", source)
  | some (.identifier name), source => (.keyword name, source)
  | some term, source =>
    let l := (Node.leaf policy term).live source
    (.metres l.1.toBase.number, l.2)

/-- What three terms are worth now, and the source as it is left. -/
def valueNow (terms : List Term) (source : σ) : SphericalValue × σ :=
  let r := radiusNow policy terms[2]? source
  let a := angleNow policy terms[0]? r.2
  let i := angleNow policy terms[1]? a.2
  (⟨a.1, i.1, r.1⟩, i.2)

theorem live_angle (term : Option Term) (source : σ) :
    (((angle policy term #[]).1.live source).1.toBase.number,
      ((angle policy term #[]).1.live source).2) = angleNow policy term source := by
  cases term <;> rfl

theorem live_ofTerm? (term : Option Term) (source : σ) :
    (RadiusTerm.ofTerm? policy term #[]).1.live source = radiusNow policy term source := by
  rcases term with _ | _ | _ | _ | _ <;> rfl

theorem live_ofExpressions_eq (expressions : List Expression) (log : Log) (source : σ) :
    (ofExpressions policy expressions log).1.live source =
      valueNow policy (expressions.headD []) source := by
  rw [ofExpressions, ofTerms_fst, valueNow]
  simp only [ofComponents, live, ← live_ofTerm?, ← live_angle]

/-- A radius is a keyword when it is written as one, and when none is written. -/
theorem radiusNow_eq_keyword_iff {term : Option Term} {source : σ} {name : String} :
    (radiusNow policy term source).1 = .keyword name ↔
      term = some (.identifier name) ∨ term = none ∧ name = "auto" := by
  rcases term with _ | _ | _ | _ | _ <;> simp [radiusNow, eq_comm]

end Now

inductive Move (σ : Type) where
  | evaluate
  | change (f : σ → σ)

section Runs
variable {σ : Type}

def run [ScrollSource σ] : List (Move σ) → Spherical → Host σ →
    Outcome Spherical (List (SphericalValue × σ)) σ
  | [], s, host => ⟨[], s, host⟩
  | .evaluate :: moves, s, host =>
    let o := s.evaluate host
    let rest := run moves o.next o.host
    ⟨(o.value, o.host.source) :: rest.value, rest.next, rest.host⟩
  | .change f :: moves, s, host => run moves s { host with source := f host.source }

/-- The answers to the same moves when each is computed from the source alone. -/
def answers (compute : σ → SphericalValue × σ) : List (Move σ) → σ → List (SphericalValue × σ)
  | [], _ => []
  | .evaluate :: moves, source => compute source :: answers compute moves (compute source).2
  | .change f :: moves, source => answers compute moves (f source)

variable [ScrollSource σ] {policy : DivisionPolicy} {expressions : List Expression} {log : Log}
  {now : Spherical}

/-- An evaluation at any time gives what the terms are worth now. -/
theorem Later.evaluate_eq_valueNow (h : (ofExpressions policy expressions log).1.Later now)
    (host : Host σ) :
    ((now.evaluate host).value, (now.evaluate host).host.source) =
      valueNow policy (expressions.headD []) host.source :=
  (h.evaluate_eq_live host).trans (live_ofExpressions_eq policy expressions log host.source)

theorem Later.run_value (h : (ofExpressions policy expressions log).1.Later now)
    (moves : List (Move σ)) (host : Host σ) :
    (run moves now host).value =
      answers (valueNow policy (expressions.headD [])) moves host.source := by
  induction moves generalizing now host with
  | nil => rfl
  | cons move moves ih =>
    cases move with
    | evaluate =>
      have hnow := h.evaluate_eq_valueNow host
      rw [run, answers, ← hnow, ih (h.evaluated host)]
    | change f => exact ih h _

end Runs

/-- Only the first three terms are built. -/
theorem ofExpressions_fst_congr (policy : DivisionPolicy) {expressions expressions' : List Expression}
    (h : (expressions.headD []).take 3 = (expressions'.headD []).take 3) (log log' : Log) :
    (ofExpressions policy expressions log).1 = (ofExpressions policy expressions' log').1 := by
  have hterm (i : Nat) (hi : i < 3) : (expressions.headD [])[i]? = (expressions'.headD [])[i]? := by
    rw [← List.getElem?_take_of_lt hi, h, List.getElem?_take_of_lt hi]
  rw [ofExpressions, ofExpressions, ofTerms_fst, ofTerms_fst, hterm 0 (by omega),
    hterm 1 (by omega), hterm 2 (by omega)]

end Spherical

/-- A spherical value is what its first three terms are worth.  In every run, each evaluation gives
the live values of radius, azimuth and inclination in base units, read in this order; a constant one
gives its first value for ever and reads nothing.  Expressions that agree in the first three terms of
the first one make the same value, and the radius is a keyword exactly when an identifier or nothing
is written for it. -/
theorem spherical_values_exact :
    (∀ (policy : DivisionPolicy) (expressions : List Expression) (log : Log) (now : Spherical),
      (Spherical.ofExpressions policy expressions log).1.Later now →
        ∀ (σ : Type) [ScrollSource σ] (moves : List (Spherical.Move σ)) (host : Host σ),
          (now.run moves host).value = Spherical.answers
            (Spherical.valueNow policy (expressions.headD [])) moves host.source) ∧
    (∀ (policy : DivisionPolicy) (expressions : List Expression) (log : Log),
      let s := (Spherical.ofExpressions policy expressions log).1
      s.isConstant = true → ∀ now, s.Later now →
        ∀ (σ τ : Type) [ScrollSource σ] [ScrollSource τ] (first : Host σ) (host : Host τ),
          (now.evaluate host).value = (s.evaluate first).value ∧
            (now.evaluate host).host.source = host.source) ∧
    (∀ (policy : DivisionPolicy) (expressions expressions' : List Expression) (log log' : Log),
      (expressions.headD []).take 3 = (expressions'.headD []).take 3 →
        let s := (Spherical.ofExpressions policy expressions log).1
        let t := (Spherical.ofExpressions policy expressions' log').1
        s = t ∧ ∀ now now', s.Later now → t.Later now' →
          ∀ (σ : Type) [ScrollSource σ] (moves : List (Spherical.Move σ)) (host other : Host σ),
            host.source = other.source →
              (now.run moves host).value = (now'.run moves other).value) ∧
    ∀ (policy : DivisionPolicy) (expressions : List Expression) (log : Log) (now : Spherical),
      (Spherical.ofExpressions policy expressions log).1.Later now →
        ∀ (σ : Type) [ScrollSource σ] (host : Host σ) (name : String),
          (now.evaluate host).value.radius = .keyword name ↔
            (expressions.headD [])[2]? = some (.identifier name) ∨
              (expressions.headD [])[2]? = none ∧ name = "auto" := by
  refine ⟨?_, ?_, ?_, ?_⟩
  · exact fun policy expressions log now hnow σ _ moves host => hnow.run_value moves host
  · intro policy expressions log s hconstant now hnow σ τ _ _ first host
    obtain ⟨value, hvalue⟩ := Spherical.evaluate_ofExpressions_of_isConstant hconstant
    rw [(hvalue log s .now σ first).1]
    exact hvalue log now hnow τ host
  · intro policy expressions expressions' log log' h s t
    have hsame : s = t := Spherical.ofExpressions_fst_congr policy h log log'
    refine ⟨hsame, fun now now' hnow hnow' σ _ moves host other hsource => ?_⟩
    rw [hnow.run_value, (hsame ▸ hnow' : s.Later now').run_value, hsource]
  · intro policy expressions log now hnow σ _ host name
    obtain ⟨hvalue, -⟩ := Prod.mk.inj (hnow.evaluate_eq_valueNow host)
    rw [hvalue]
    exact Spherical.radiusNow_eq_keyword_iff policy

/-- A radius and an azimuth that scroll, evaluated before; and a broken inclination beside a keyword,
with more written behind it in another list. -/
theorem spherical_values_exact_scrolled :
    let progress := Term.call "env" [[.identifier "window-scroll-y"]]
    let length := Term.call "calc" [[progress, .operator "*", .number ⟨50, some .centimetre⟩]]
    let scrolled : List Expression := [[progress, .number ⟨90, some .degree⟩, length, progress], []]
    let far : List Expression :=
      [[.number ⟨90, some .degree⟩, .call "calc" [], .identifier "far"]]
    let farther : List Expression :=
      [[.number ⟨90, some .degree⟩, .call "calc" [], .identifier "far", .operator "-"], [progress]]
    let host : Host Recording := ⟨Recording.start ⟨50, 500, 100⟩, #[]⟩
    let moves : List (Spherical.Move Recording) :=
      [.evaluate, .change fun source => source.set ⟨100, 500, 100⟩, .evaluate]
    let now := ((Spherical.ofExpressions .zero scrolled #[]).1.evaluate host).next
    let s := (Spherical.ofExpressions .zero far #[]).1
    let t := (Spherical.ofExpressions .zero farther #[]).1
    (now.run moves host).value =
        Spherical.answers (Spherical.valueNow .zero (scrolled.headD [])) moves host.source ∧
      s.isConstant = true ∧
      ((s.evaluate host).next.evaluate host).value = (s.evaluate host).value ∧
      s = t ∧ (s.run moves host).value = (t.run moves host).value ∧
      (t.evaluate host).value.radius = .keyword "far" := by
  intro progress length scrolled far farther host moves now s t
  obtain ⟨hrun, hconstant, hthree, hkeyword⟩ := spherical_values_exact
  have hfar : s.isConstant = true := by decide
  obtain ⟨hsame, hruns⟩ := hthree .zero far farther #[] #[] rfl
  refine ⟨?_, hfar, ?_, hsame, ?_, ?_⟩
  · exact hrun .zero scrolled #[] now (.evaluated host .now) Recording moves host
  · exact (hconstant .zero far #[] hfar _ (.evaluated host .now) Recording Recording host host).1
  · exact hruns s t .now .now Recording moves host host rfl
  · exact (hkeyword .zero farther #[] t .now Recording host "far").mpr (.inl rfl)

end LiveStyle
