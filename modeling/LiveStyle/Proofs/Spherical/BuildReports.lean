import LiveStyle.Proofs.Tree.BuildReports
import LiveStyle.Spherical.Evaluate

/-! # What building a spherical value reports

Whatever is ignored is reported first; then the components report, in the order in which they are
written.  A keyword is not built and has nothing to report.
-/
namespace LiveStyle

namespace Spherical

def componentReports (term : Option Term) : List Event := term.elim [] Term.buildReports

def radiusReports : Option Term → List Event
  | some (.identifier _) => []
  | term => componentReports term

/-- What is reported while the components are built, after a word on what is left out. -/
def buildReports (expressions : List Expression) : List Event :=
  let terms := expressions.headD []
  (if 3 < terms.length ∨ 1 < expressions.length then
      [.extraComponents expressions.length terms.length]
    else []) ++
    (componentReports terms[0]? ++ componentReports terms[1]? ++ radiusReports terms[2]?)

theorem log_angle (policy : DivisionPolicy) (term : Option Term) (log : Log) :
    (angle policy term log).2 = log ++ (componentReports term).toArray := by
  cases term with
  | none => simp [angle, componentReports]
  | some term => exact Node.log_ofTerm policy term log

theorem log_radius (policy : DivisionPolicy) (term : Option Term) (log : Log) :
    (RadiusTerm.ofTerm? policy term log).2 = log ++ (radiusReports term).toArray := by
  cases term with
  | none => simp [RadiusTerm.ofTerm?, radiusReports, componentReports]
  | some term =>
    cases term with
    | identifier name => simp [RadiusTerm.ofTerm?, radiusReports]
    | _ => simp [RadiusTerm.ofTerm?, radiusReports, componentReports, Node.log_ofTerm]

theorem log_ofTerms (policy : DivisionPolicy) (terms : List Term) (log : Log) :
    (ofTerms policy terms log).2 =
      log ++ (componentReports terms[0]? ++ componentReports terms[1]? ++
        radiusReports terms[2]?).toArray := by
  simp only [ofTerms, log_radius, log_angle]
  apply Array.toList_inj.mp
  simp

theorem log_ofExpressions (policy : DivisionPolicy) (expressions : List Expression) (log : Log) :
    (ofExpressions policy expressions log).2 = log ++ (buildReports expressions).toArray := by
  rw [ofExpressions, log_ofTerms, buildReports]
  generalize expressions.headD [] = terms
  apply Array.toList_inj.mp
  by_cases h : 3 < terms.length ∨ 1 < expressions.length
  · simp [h]
  · simp [h]

end Spherical

/-- The reports of a build are those of its terms, and come after what was reported before.  A
calculation opens its span, reports its operands from left to right as far as the tight pass comes,
and closes with its error if it has one; the tight pass comes to the first violation and not
further.  A spherical value reports what it ignores, and then its components as they are
written. -/
theorem build_reports_exact :
    (∀ (policy : DivisionPolicy) (term : Term) (log : Log),
      (Node.ofTerm policy term log).2 = log ++ term.buildReports.toArray) ∧
    (∀ (policy : DivisionPolicy) (name : String) (arguments : List (List Term)) (log : Log),
      let built := Node.ofCalculation policy name arguments log
      built.2 = log ++ (Term.calculationReports (.call name arguments) built.1.buildError?
        (Term.argumentReports arguments)).toArray) ∧
    (∀ (arguments : List (List Term)) (log : Log),
      (Node.ofEnvironment arguments log).2 = log ++ (Term.environmentReports arguments).toArray) ∧
    (∀ (policy : DivisionPolicy) (terms : List Term) (n : Nat) (log : Log),
      (∃ stack, (Node.foldTight policy (terms.take n) [] log).1 = .ok stack) ↔
        min n terms.length ≤ Term.placed terms) ∧
    ∀ (policy : DivisionPolicy) (expressions : List Expression) (log : Log),
      (Spherical.ofExpressions policy expressions log).2 =
        log ++ (Spherical.buildReports expressions).toArray := by
  refine ⟨Node.log_ofTerm, ?_, Node.log_ofEnvironment, Node.foldTight_take_ok_iff,
    Spherical.log_ofExpressions⟩
  intro policy name arguments log built
  refine Node.log_ofCalculation policy name (fun terms _ term _ => ?_) log
  rw [Node.log_ofTerm, Array.empty_append]

end LiveStyle
