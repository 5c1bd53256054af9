import LiveStyle.Proofs.Spherical.Memory
import LiveStyle.Binding
import LiveStyle.Style

/-! # Evaluation while the metrics stand still

Evaluations share nothing but the scroll source.  As long as nobody sets its metrics, all that one
evaluation shows another is the count of samples, on which no value depends.  So what comes of an
evaluation, and how many samples it takes, does not depend on the host.
-/
namespace LiveStyle

/-- At each metrics that a recording can have there is one value, one thing left over and one number
of samples taken, whatever was sampled or logged before. -/
def Repeatable {ε α : Type} (f : Host Environment → Outcome ε α Environment) : Prop :=
  ∀ current, ∃ value next taken, ∀ (host : Host Environment) (samples : Nat),
    host.source = .recording ⟨current, samples⟩ →
      (f host).value = value ∧ (f host).next = next ∧
        (f host).host.source = .recording ⟨current, samples + taken⟩

namespace Repeatable
variable {ε ε' α β : Type} {f : Host Environment → Outcome ε α Environment}

theorem congr {g : Host Environment → Outcome ε α Environment} (h : ∀ host, f host = g host)
    (hg : Repeatable g) : Repeatable f := by
  rwa [funext h]

/-- What leaves the source alone and depends on nothing in the host. -/
theorem still {value : α} {next : ε} (hvalue : ∀ host, (f host).value = value)
    (hnext : ∀ host, (f host).next = next)
    (hsource : ∀ host, (f host).host.source = host.source) : Repeatable f := by
  intro current
  refine ⟨value, next, 0, fun host samples h => ⟨hvalue host, hnext host, ?_⟩⟩
  rw [hsource, h]
  rfl

theorem pure (value : α) (next : ε) : Repeatable fun host => ⟨value, next, host⟩ :=
  still (fun _ => rfl) (fun _ => rfl) fun _ => rfl

theorem note (value : α) (next : ε) (event : Event) :
    Repeatable fun host => ⟨value, next, host.note event⟩ :=
  still (fun _ => rfl) (fun _ => rfl) fun _ => rfl

/-- One after the other: the second begins with what the first leaves. -/
theorem andThen {g : α → ε → Host Environment → Outcome ε' β Environment} (hf : Repeatable f)
    (hg : ∀ value next, Repeatable (g value next)) :
    Repeatable fun host => g (f host).value (f host).next (f host).host := by
  intro current
  obtain ⟨value, next, taken, hfirst⟩ := hf current
  obtain ⟨value', next', taken', hsecond⟩ := hg value next current
  refine ⟨value', next', taken + taken', fun host samples h => ?_⟩
  obtain ⟨hvalue, hnext, hsource⟩ := hfirst host samples h
  have hrest := hsecond (f host).host (samples + taken) hsource
  rwa [← hvalue, ← hnext, Nat.add_assoc] at hrest

end Repeatable

namespace Node

theorem repeatable_degrade (policy : DivisionPolicy) (symbol : String) (left right : Quantity)
    (next : Quantity → Node) :
    Repeatable fun host =>
      let result := degrade policy symbol left right host
      ⟨result.1, next result.1, result.2⟩ :=
  .still (degrade_value policy symbol left right)
    (fun host => congrArg next (degrade_value policy symbol left right host))
    (degrade_source policy symbol left right)

theorem repeatable_evaluate (node : Node) : Repeatable node.evaluate := by
  induction node with
  | literal quantity => exact .pure quantity _
  | environment identifier =>
    intro current
    by_cases h : identifier = some Variable.windowScrollY.name
    · refine ⟨.unitless current.fraction, environment identifier, 1, ?_⟩
      intro host samples hsource
      rw [evaluate, sample_eq, snapshot, if_pos h, hsource]
      exact ⟨rfl, rfl, rfl⟩
    · refine ⟨.zero, environment identifier, 0, ?_⟩
      intro host samples hsource
      rw [evaluate, sample_eq, snapshot, if_neg h, hsource]
      exact ⟨rfl, rfl, rfl⟩
  | operator symbol left right policy memo ihl ihr =>
    cases h : memo.remembered with
    | some value =>
      exact .congr (fun host => evaluate_operator_of_remembered symbol left right policy host h)
        (.note value _ _)
    | none =>
      refine .congr (fun host => evaluate_operator_of_forgotten symbol left right policy host h) ?_
      exact ihl.andThen fun l next => ihr.andThen fun r next' =>
        repeatable_degrade policy symbol l r fun value =>
          operator symbol next next' policy (memo.keep value)
  | calculation inner memo ih =>
    cases h : memo.remembered with
    | some value =>
      exact .congr (fun host => evaluate_calculation_of_remembered inner host h)
        (.note value _ _)
    | none =>
      refine .congr (fun host => evaluate_calculation_of_forgotten inner host h) ?_
      exact ih.andThen fun value next => .pure value (calculation next (memo.keep value))
  | broken error memo =>
    cases h : memo.remembered with
    | some value =>
      exact .congr (fun host => evaluate_broken_of_remembered error host h)
        (.note value _ _)
    | none =>
      exact .congr (fun host => evaluate_broken_of_forgotten error host h) (.pure _ _)

theorem repeatable_evaluateAt (path : List Step) (node : Node) :
    Repeatable (evaluateAt path node) := by
  induction path generalizing node with
  | nil => exact node.repeatable_evaluate.andThen fun value next => .pure (some value) next
  | cons step path ih =>
    cases node with
    | operator symbol left right policy memo =>
      cases step with
      | inner => exact .pure none _
      | left =>
        exact (ih left).andThen fun value next =>
          .pure value (operator symbol next right policy memo)
      | right =>
        exact (ih right).andThen fun value next =>
          .pure value (operator symbol left next policy memo)
    | calculation inner memo =>
      cases step with
      | inner => exact (ih inner).andThen fun value next => .pure value (calculation next memo)
      | _ => exact .pure none _
    | _ => cases step <;> exact .pure none _

end Node

theorem RadiusTerm.repeatable_evaluate (radius : RadiusTerm) : Repeatable radius.evaluate := by
  cases radius with
  | keyword name => exact .pure _ _
  | length node =>
    exact node.repeatable_evaluate.andThen fun value next =>
      .pure (Radius.metres value.toBase.number) (length next)

theorem Spherical.repeatable_evaluate (s : Spherical) : Repeatable s.evaluate := by
  cases h : s.memo.remembered with
  | some value =>
    exact .congr (fun host => evaluate_of_remembered h host) (.note value s _)
  | none =>
    let value (r : Radius) (a i : Quantity) : SphericalValue :=
      ⟨a.toBase.number, i.toBase.number, r⟩
    refine .congr (fun host => evaluate_of_forgotten h host) ?_
    exact s.radius.repeatable_evaluate.andThen fun r radius =>
      s.azimuth.repeatable_evaluate.andThen fun a azimuth =>
        s.inclination.repeatable_evaluate.andThen fun i inclination =>
          .pure (value r a i)
            (Spherical.mk azimuth inclination radius (s.memo.keep (value r a i)))

namespace Style

theorem repeatable_evaluate (style : Style) : Repeatable style.evaluate := by
  cases style with
  | number node =>
    exact node.repeatable_evaluate.andThen fun value next =>
      .pure (StyleValue.number value) (number next)
  | spherical s =>
    exact s.repeatable_evaluate.andThen fun value next =>
      .pure (StyleValue.spherical value) (spherical next)
  | probe p =>
    exact .pure (StyleValue.calls (p.calls + 1)) (probe { p with calls := p.calls + 1 })

theorem repeatable_evaluateAt (path : List Node.Step) (style : Style) :
    Repeatable (style.evaluateAt path) := by
  cases path with
  | nil => exact style.repeatable_evaluate.andThen fun value next => .pure (some value) next
  | cons step path =>
    cases style with
    | number node =>
      exact (node.repeatable_evaluateAt (step :: path)).andThen fun value next =>
        .pure (value.map StyleValue.number) (number next)
    | _ => exact .pure none _

end Style

theorem Binding.repeatable_refresh (binding : Binding Style StyleValue) :
    Repeatable binding.refresh := by
  by_cases h : binding.current.isSome = true ∧ binding.isConstant = true
  · exact .congr (fun host => refresh_of_delivered host h.1 h.2) (.pure none binding)
  · have hdue : binding.current = none ∨ binding.isConstant = false := by
      rcases hcurrent : binding.current with _ | value
      · exact .inl rfl
      · exact .inr (by simpa [hcurrent] using h)
    refine .congr (fun host => refresh_of_due host hdue) ?_
    exact binding.tree.repeatable_evaluate.andThen fun value next =>
      .pure (some value) (Binding.mk next (some value))

end LiveStyle
