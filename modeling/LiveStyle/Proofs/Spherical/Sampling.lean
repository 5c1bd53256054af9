import LiveStyle.Proofs.Evaluation.Sampling
import LiveStyle.Proofs.Spherical.Memory
import LiveStyle.Session.Run

/-! # Sampling of spherical values

A spherical value takes the snapshots of its radius first, then those of its azimuth and then those
of its inclination, although they are written in another order.  In each component they are used in
source order.
-/
namespace LiveStyle
open ScrollSource (skip)

/-- A keyword is not replaced, and nothing is replaced by one. -/
theorem Term.supply_eq_identifier_iff {values : Nat → Quantity} {first : Nat} {term : Term}
    {name : String} : term.supply values first = identifier name ↔ term = identifier name := by
  cases term with
  | call found arguments =>
    rw [supply]
    rcases Builtin.ofName? found with _ | _ | _
    · simp
    · simp
    · dsimp only
      split <;> simp
  | _ => rfl

namespace Spherical

def reads (term : Option Term) : Nat := term.elim 0 Term.liveReads

/-- The place of a component's first snapshot, by its place among the terms: the radius comes first,
then the two angles. -/
def firstRead (terms : List Term) : Nat → Nat
  | 0 => reads terms[2]?
  | 1 => reads terms[2]? + reads terms[0]?
  | _ => 0

def supply (values : Nat → Quantity) (terms : List Term) : List Term :=
  terms.mapIdx fun i term => term.supply values (firstRead terms i)

theorem getElem?_supply (values : Nat → Quantity) (terms : List Term) (i : Nat) :
    (supply values terms)[i]? =
      terms[i]?.map fun term => term.supply values (firstRead terms i) :=
  List.getElem?_mapIdx

section Samples
variable {σ τ : Type} [ScrollSource σ] [ScrollSource τ] (policy : DivisionPolicy) (start : σ)
  (other : τ)

theorem samples_angle (term : Option Term) (first : Nat) :
    Term.Samples start other first (reads term) (angle policy term #[]).1.live
      (angle policy (term.map fun t => t.supply (readings start) first) #[]).1.live := by
  cases term with
  | none => exact ⟨.zero, rfl, rfl⟩
  | some term =>
    obtain ⟨value, hsampled, hsupplied⟩ :=
      Term.samplesSupplied policy start other term first
    exact ⟨value, (Node.live_leaf policy term _).trans hsampled,
      (Node.live_leaf policy _ other).trans hsupplied⟩

theorem samples_radius (term : Option Term) (first : Nat) :
    Term.Samples start other first (reads term) (RadiusTerm.ofTerm? policy term #[]).1.live
      (RadiusTerm.ofTerm? policy (term.map fun t => t.supply (readings start) first)
        #[]).1.live := by
  cases term with
  | none => exact ⟨_, rfl, rfl⟩
  | some term =>
    rcases RadiusTerm.ofTerm?_cases policy term #[] with ⟨name, rfl, -⟩ | ⟨hname, hradius⟩
    · exact ⟨.keyword name, rfl, rfl⟩
    · obtain ⟨value, hsampled, hsupplied⟩ :=
        Term.samplesSupplied policy start other term first
      have hother : (RadiusTerm.ofTerm? policy (some (term.supply (readings start) first)) #[]).1 =
          .length (Node.leaf policy (term.supply (readings start) first)) := by
        rcases RadiusTerm.ofTerm?_cases policy (term.supply (readings start) first) #[] with
          ⟨name, hsupply, -⟩ | ⟨-, hother⟩
        · exact absurd (Term.supply_eq_identifier_iff.mp hsupply) (hname name)
        · exact hother
      refine ⟨.metres value.toBase.number, ?_, ?_⟩
      · rw [hradius, RadiusTerm.live, Node.live_leaf, hsampled]
        rfl
      · rw [Option.map_some, hother, RadiusTerm.live, Node.live_leaf, hsupplied]

/-- The components are sampled one after the other, each from where the one before has ended. -/
theorem samples_ofTerms (terms : List Term) (log log' : Log) :
    Term.Samples start other 0 (reads terms[2]? + reads terms[0]? + reads terms[1]?)
      (ofTerms policy terms log).1.live
      (ofTerms policy (supply (readings start) terms) log').1.live := by
  obtain ⟨r, hr, hr'⟩ := samples_radius policy start other terms[2]? 0
  obtain ⟨a, ha, ha'⟩ :=
    samples_angle policy start other terms[0]? (reads terms[2]?)
  obtain ⟨i, hi, hi'⟩ :=
    samples_angle policy start other terms[1]? (reads terms[2]? + reads terms[0]?)
  refine ⟨⟨a.toBase.number, i.toBase.number, r⟩, ?_, ?_⟩
  · rw [Nat.zero_add] at hr ⊢
    simp only [ofTerms_fst, ofComponents, live, hr, ha, hi]
  · simp only [ofTerms_fst, ofComponents, live, getElem?_supply, firstRead, hr', ha', hi']

end Samples

variable {σ : Type} [ScrollSource σ]

theorem Later.evaluate_eq_live {policy : DivisionPolicy} {expressions : List Expression}
    {log : Log} {now : Spherical} (h : (ofExpressions policy expressions log).1.Later now)
    (host : Host σ) :
    ((now.evaluate host).value, (now.evaluate host).host.source) =
      (ofExpressions policy expressions log).1.live host.source := by
  have hnow := faithful_evaluate (h.coherent (coherent_ofExpressions policy expressions log)) host
  rw [hnow.value_eq, hnow.source_eq, live_congr h.forget_eq]

/-- At any time, a spherical value samples the source once for each live read of its components, and
has the value of the components to which the snapshots are supplied in the order of evaluation. -/
theorem Later.samples {policy : DivisionPolicy} {expressions : List Expression} {log : Log}
    {now : Spherical} (h : (ofExpressions policy expressions log).1.Later now) (host : Host σ) :
    let terms := expressions.headD []
    (now.evaluate host).host.source =
        skip (reads terms[2]? + reads terms[0]? + reads terms[1]?) host.source ∧
      ∀ (τ : Type) [ScrollSource τ] (other : Host τ) (log' : Log),
        let supplied :=
          (ofExpressions policy [supply (readings host.source) terms] log').1
        (now.evaluate host).value = (supplied.evaluate other).value ∧
          (supplied.evaluate other).host.source = other.source := by
  intro terms
  have hnow := h.evaluate_eq_live host
  constructor
  · obtain ⟨value, hsampled, -⟩ := samples_ofTerms policy host.source host.source terms _ #[]
    rw [Nat.zero_add] at hsampled
    exact (Prod.mk.inj (hnow.trans hsampled)).2
  · intro τ _ other log' supplied
    obtain ⟨value, hsampled, hsupplied⟩ := samples_ofTerms policy host.source other.source terms _ _
    have hother := (Later.now : supplied.Later supplied).evaluate_eq_live other
    obtain ⟨hvalue, -⟩ := Prod.mk.inj (hnow.trans hsampled)
    obtain ⟨hothervalue, hothersource⟩ := Prod.mk.inj (hother.trans hsupplied)
    exact ⟨hvalue.trans hothervalue.symm, hothersource⟩

theorem exists_skip_evaluate (s : Spherical) (host : Host σ) :
    ∃ n, (s.evaluate host).host.source = skip n host.source := by
  have hradius : ∃ n, (s.radius.evaluate host).host.source = skip n host.source := by
    cases s.radius with
    | keyword name => exact ⟨0, rfl⟩
    | length node => exact Node.exists_skip_evaluate node host
  cases hremembered : s.memo.remembered with
  | some value =>
    rw [evaluate_of_remembered hremembered]
    exact ⟨0, rfl⟩
  | none =>
    obtain ⟨r, hr⟩ := hradius
    obtain ⟨a, ha⟩ := Node.exists_skip_evaluate s.azimuth (s.radius.evaluate host).host
    obtain ⟨i, hi⟩ := Node.exists_skip_evaluate s.inclination
      (s.azimuth.evaluate (s.radius.evaluate host).host).host
    rw [evaluate_of_forgotten hremembered]
    refine ⟨r + a + i, ?_⟩
    rw [ScrollSource.skip_add, ScrollSource.skip_add, ← hr, ← ha]
    exact hi

end Spherical

theorem Style.exists_skip_evaluateAt {σ : Type} [ScrollSource σ] (path : List Node.Step)
    (style : Style) (host : Host σ) :
    ∃ n, (style.evaluateAt path host).host.source = skip n host.source := by
  have hstyle : ∃ n, (style.evaluate host).host.source = skip n host.source := by
    cases style with
    | number node => exact Node.exists_skip_evaluate node host
    | spherical s => exact Spherical.exists_skip_evaluate s host
    | probe probe => exact ⟨0, rfl⟩
  cases path with
  | nil => exact hstyle
  | cons step path =>
    cases style with
    | number node => exact Node.exists_skip_evaluateAt (step :: path) node host
    | _ => exact ⟨0, rfl⟩

/-- Sampling is exact and in source order.  An evaluation takes one snapshot for each live read of
the terms, and its value is that of the terms to which these snapshots are supplied, from left to
right and the radius of a spherical value first.  A snapshot is one counted sample of a recording
and three readings of single metrics.  Building takes none, and evaluating leaves the metrics of a
recording alone. -/
theorem sampling_exact_and_in_order :
    (∀ (policy : DivisionPolicy) (term : Term) (log : Log) (now : Node) (σ : Type)
      [ScrollSource σ] (host : Host σ), (Node.ofTerm policy term log).1.Later now →
        (now.evaluate host).host.source = skip term.liveReads host.source ∧
          ∀ (τ : Type) [ScrollSource τ] (other : Host τ) (log' : Log),
            let supplied :=
              (Node.ofTerm policy (term.supply (readings host.source) 0) log').1
            (now.evaluate host).value = (supplied.evaluate other).value ∧
              (supplied.evaluate other).host.source = other.source) ∧
    (∀ (policy : DivisionPolicy) (arguments : List (List Term)) (log : Log),
      (Term.call "calc" arguments).liveReads =
        if (Node.ofCalculation policy "calc" arguments log).1.buildError?.isNone then
          Term.liveReadsTerms arguments.flatten
        else 0) ∧
    (∀ (policy : DivisionPolicy) (expressions : List Expression) (log : Log) (now : Spherical)
      (σ : Type) [ScrollSource σ] (host : Host σ),
      let terms := expressions.headD []
      let reads := fun i => Spherical.reads terms[i]?
      (Spherical.ofExpressions policy expressions log).1.Later now →
        (now.evaluate host).host.source = skip (reads 2 + reads 0 + reads 1) host.source ∧
          ∀ (τ : Type) [ScrollSource τ] (other : Host τ) (log' : Log),
            let supplied := (Spherical.ofExpressions policy
              [Spherical.supply (readings host.source) terms] log').1
            (now.evaluate host).value = (supplied.evaluate other).value ∧
              (supplied.evaluate other).host.source = other.source) ∧
    (∀ (n : Nat) (source : Recording),
      skip n source = ⟨source.current, source.samples + n⟩) ∧
    (∀ (n : Nat) (σ : Type) [ScrollSource σ] (traced : Traced σ),
      (skip n traced).reads =
        traced.reads ++ (List.replicate n [.offset, .extent, .viewportHeight]).flatten) ∧
    (∀ (session : Session) (id : String) (recipe : Recipe),
      (session.step (.build id recipe)).2.host.source = session.host.source) ∧
    (∀ (path : List Node.Step) (style : Style) (host : Host Recording),
      (style.evaluateAt path host).host.source.current = host.source.current) := by
  refine ⟨?_, Term.liveReads_calculation, ?_, ScrollSource.skip_recording, ?_, ?_, ?_⟩
  · exact fun policy term log now σ _ host hnow => hnow.samples host
  · exact fun policy expressions log now σ _ host hnow => hnow.samples host
  · exact fun n σ _ traced => traced.reads_skip n
  · exact fun session id recipe => rfl
  · intro path style host
    obtain ⟨n, hsource⟩ := style.exists_skip_evaluateAt path host
    rw [hsource, ScrollSource.skip_recording]

/-- A sum that scrolls twice, evaluated before, and a spherical value with that sum as its radius. -/
theorem sampling_exact_and_in_order_twice :
    let progress := Term.call "env" [[.identifier "window-scroll-y"]]
    let double := fun left right : Term =>
      Term.call "calc" [[left, .operator "+", .number ⟨2, none⟩, .operator "*", right]]
    let host : Host Replay := ⟨Replay.start [10, 110, 10, 20, 110, 10], #[]⟩
    let now := ((Node.ofTerm .ieee (double progress progress) #[]).1.evaluateAt [] host).next
    let given := fun j => Term.number (readings host.source j)
    let s := (Spherical.ofExpressions .ieee
      [[progress, .number .zero, double progress progress]] #[]).1
    let supplied := (Spherical.ofExpressions .ieee
      [[given 2, .number .zero, double (given 0) (given 1)]] #[]).1
    (now.evaluate host).host.source = skip 2 host.source ∧
      (now.evaluate host).value =
        ((Node.ofTerm .ieee (double (given 0) (given 1)) #[]).1.evaluate host).value ∧
      (s.evaluate host).host.source = skip 3 host.source ∧
      (s.evaluate host).value = (supplied.evaluate host).value := by
  intro progress double host now given s supplied
  obtain ⟨hterm, -, hspherical, -⟩ := sampling_exact_and_in_order
  have hnow : (Node.ofTerm .ieee (double progress progress) #[]).1.Later now :=
    .evaluated [] host .now
  obtain ⟨hsource, hvalue⟩ := hterm .ieee (double progress progress) #[] now Replay host hnow
  obtain ⟨hsource', hvalue'⟩ := hspherical .ieee
    [[progress, .number .zero, double progress progress]] #[] s Replay host .now
  exact ⟨hsource, (hvalue Replay host #[]).1, hsource', (hvalue' Replay host #[]).1⟩

end LiveStyle
