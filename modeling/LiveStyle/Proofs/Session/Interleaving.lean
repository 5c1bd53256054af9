import LiveStyle.Proofs.Session.Sharing
import Mathlib.Algebra.GroupWithZero.Nat

/-! # Interleaving

Evaluators and bindings of many owners are held in one session, over one recording source, and each
request comes in a context with a policy of its own.  As long as the metrics stand still, an owner
cannot tell whether the others are there at all; so it does not matter how their requests are
interleaved, and in the end even the count of samples is the same.
-/
namespace LiveStyle

/-- Lists with the same part under every key are the same up to order. -/
theorem perm_of_filter_eq {α ι : Type} [DecidableEq ι] (key : α → ι) {xs ys : List α}
    (h : ∀ k, xs.filter (fun x => key x = k) = ys.filter fun y => key y = k) : xs.Perm ys := by
  classical
  apply List.perm_iff_count.mpr
  intro a
  -- Whatever equals `a` is in the part of its key.
  have hpart (zs : List α) : (zs.filter fun z => key z = key a).count a = zs.count a :=
    List.count_filter (decide_eq_true rfl)
  rw [← hpart xs, h, hpart]

namespace Session

/-- A request, whose it is, and the policy of the context in which it is made. -/
structure Turn (ι : Type) where
  owner : ι
  policy : DivisionPolicy
  request : Request

/-- The reply to a turn, and how many samples are taken for it. -/
structure Answer (ι : Type) where
  owner : ι
  reply : Except Refusal Reply
  samples : Nat

def sampled (session : Session) : Nat := session.host.source.samples.getD 0

section Turns
variable {ι : Type}

/-- The context is set up before the request is made. -/
def take (session : Session) (turn : Turn ι) : Except Refusal Reply × Session :=
  (session.step (.division turn.policy)).2.answer turn.request

def play : List (Turn ι) → Session → List (Answer ι) × Session
  | [], session => ([], session)
  | turn :: turns, session =>
    let o := session.take turn
    let later := play turns o.2
    (⟨turn.owner, o.1, o.2.sampled - session.sampled⟩ :: later.1, later.2)

/-- Owners name entries of their own, and nobody changes the metrics. -/
structure Turn.Confined (owner : String → ι) (turn : Turn ι) : Prop where
  owner_eq : ∀ id ∈ turn.request.names, owner id = turn.owner
  ne_set : ∀ metrics, turn.request ≠ .command (.set metrics)

/-- Sessions at the same metrics with the same entries of one owner. -/
structure Shared (owner : String → ι) (k : ι) (current : ScrollMetrics) (x y : Session) :
    Prop where
  find?_eq : ∀ id, owner id = k → x.store.find? id = y.store.find? id
  left : ∃ samples, x.host.source = .recording ⟨current, samples⟩
  right : ∃ samples, y.host.source = .recording ⟨current, samples⟩

variable {owner : String → ι} {k : ι} {current : ScrollMetrics} {x y : Session}
  {samples samples' : Nat} {turn : Turn ι}

theorem sampled_recording (h : x.host.source = .recording ⟨current, samples⟩) :
    x.sampled = samples := by
  rw [sampled, h]
  rfl

theorem take_agree (hturn : turn.Confined owner)
    (hfind : ∀ id, owner id = turn.owner → x.store.find? id = y.store.find? id)
    (hx : x.host.source = .recording ⟨current, samples⟩)
    (hy : y.host.source = .recording ⟨current, samples'⟩) :
    (x.take turn).1 = (y.take turn).1 ∧
      ∃ taken, Agree (fun id => owner id = turn.owner) current x (samples + taken)
        (samples' + taken) (x.take turn).2 (y.take turn).2 := by
  have hagree : Agree (fun id => owner id = turn.owner) current x samples samples' x y :=
    ⟨hfind, fun _ _ => rfl, hx, hy⟩
  exact answer_agree (hagree.withPolicy turn.policy turn.policy) rfl turn.request hturn.owner_eq
    hturn.ne_set

theorem Shared.take (hturn : turn.Confined owner) (h : Shared owner turn.owner current x y) :
    (x.take turn).1 = (y.take turn).1 ∧
      (x.take turn).2.sampled - x.sampled = (y.take turn).2.sampled - y.sampled ∧
      Shared owner turn.owner current (x.take turn).2 (y.take turn).2 := by
  obtain ⟨hfind, ⟨samples, hx⟩, samples', hy⟩ := h
  obtain ⟨hreply, taken, hagree⟩ := take_agree hturn hfind hx hy
  refine ⟨hreply, ?_, hagree.find?_eq, ⟨_, hagree.source_left⟩, _, hagree.source_right⟩
  rw [sampled_recording hx, sampled_recording hy, sampled_recording hagree.source_left,
    sampled_recording hagree.source_right]
  omega

/-- A turn of somebody else. -/
theorem Shared.take_of_ne (hturn : turn.Confined owner) (hne : turn.owner ≠ k)
    (h : Shared owner k current x y) : Shared owner k current (x.take turn).2 y := by
  obtain ⟨hfind, ⟨samples, hx⟩, hy⟩ := h
  obtain ⟨-, taken, hagree⟩ := take_agree hturn (fun _ _ => rfl) hx hx
  refine ⟨fun id hid => ?_, ⟨_, hagree.source_left⟩, hy⟩
  have hother : ¬ owner id = turn.owner := fun heq => hne (heq.symm.trans hid)
  exact (hagree.find?_first id hother).trans (hfind id hid)

/-- What an owner sees of a run is what it sees when it is alone. -/
theorem Shared.play [DecidableEq ι] {turns : List (Turn ι)}
    (hturns : ∀ turn ∈ turns, turn.Confined owner) (h : Shared owner k current x y) :
    ((play turns x).1.filter fun answer => answer.owner = k) =
        (Session.play (turns.filter fun turn => turn.owner = k) y).1 ∧
      Shared owner k current (Session.play turns x).2
        (Session.play (turns.filter fun turn => turn.owner = k) y).2 := by
  induction turns generalizing x y with
  | nil => exact ⟨rfl, h⟩
  | cons turn turns ih =>
    obtain ⟨hturn, hturns⟩ := List.forall_mem_cons.mp hturns
    by_cases hk : turn.owner = k
    · subst hk
      obtain ⟨hreply, hsamples, hshared⟩ := h.take hturn
      obtain ⟨hanswers, hlater⟩ := ih hturns hshared
      simp only [Session.play, List.filter_cons, decide_true, if_true]
      rw [hreply, hsamples, hanswers]
      exact ⟨rfl, hlater⟩
    · simp only [Session.play, List.filter_cons, hk, decide_false]
      exact ih hturns (h.take_of_ne hturn hk)

/-- Every sample is taken for a turn. -/
theorem source_play {turns : List (Turn ι)} (hturns : ∀ turn ∈ turns, turn.Confined owner)
    (hx : x.host.source = .recording ⟨current, samples⟩) :
    (play turns x).2.host.source =
      .recording ⟨current, samples + ((play turns x).1.map Answer.samples).sum⟩ := by
  induction turns generalizing x samples with
  | nil => exact hx
  | cons turn turns ih =>
    obtain ⟨hturn, hturns⟩ := List.forall_mem_cons.mp hturns
    obtain ⟨-, taken, hagree⟩ := take_agree hturn (fun _ _ => rfl) hx hx
    have htaken : (x.take turn).2.sampled - x.sampled = taken := by
      rw [sampled_recording hx, sampled_recording hagree.source_left]
      omega
    rw [play, ih hturns hagree.source_left]
    simp only [List.map_cons, List.sum_cons, htaken, Nat.add_assoc]

end Turns
end Session

/-- While the metrics stand still, what the turns of an owner are answered, how many samples are
taken for them and what the owner then holds does not depend on the others, on their policies, on
what is in the log or on the count of samples.  So two schedules in which every owner has the same
turns in the same order end alike: every turn has the same answer, everything that is held is the
same, with all that is remembered and delivered, and so are the metrics and the count of samples. -/
theorem interleaving_immaterial {ι : Type} [DecidableEq ι] (owner : String → ι) :
    (∀ (turns : List (Session.Turn ι)) (k : ι) (current : ScrollMetrics) (x y : Session),
      (∀ turn ∈ turns, turn.Confined owner) → Session.Shared owner k current x y →
        let own := turns.filter fun turn => turn.owner = k
        ((Session.play turns x).1.filter fun answer => answer.owner = k) =
            (Session.play own y).1 ∧
          Session.Shared owner k current (Session.play turns x).2 (Session.play own y).2) ∧
    ∀ (turns turns' : List (Session.Turn ι)) (x : Session) (current : ScrollMetrics)
      (samples : Nat), (∀ turn ∈ turns, turn.Confined owner) →
      (∀ turn ∈ turns', turn.Confined owner) →
      x.host.source = .recording ⟨current, samples⟩ →
      (∀ k, turns.filter (fun turn => turn.owner = k) =
        turns'.filter fun turn => turn.owner = k) →
        let o := Session.play turns x
        let o' := Session.play turns' x
        (∀ k, o.1.filter (fun answer => answer.owner = k) =
          o'.1.filter fun answer => answer.owner = k) ∧
        (∀ id, o.2.store.find? id = o'.2.store.find? id) ∧
        o.2.host.source = o'.2.host.source ∧
        ∃ count, o.2.host.source = .recording ⟨current, count⟩ := by
  refine ⟨fun turns k current x y hturns h => h.play hturns, ?_⟩
  intro turns turns' x current samples hturns hturns' hx hsame o o'
  have hshared (k : ι) : Session.Shared owner k current x x :=
    ⟨fun _ _ => rfl, ⟨samples, hx⟩, samples, hx⟩
  have hanswers (k : ι) : o.1.filter (fun answer => answer.owner = k) =
      o'.1.filter fun answer => answer.owner = k := by
    rw [((hshared k).play hturns).1, ((hshared k).play hturns').1, hsame k]
  have hsum : (o.1.map Session.Answer.samples).sum = (o'.1.map Session.Answer.samples).sum :=
    ((perm_of_filter_eq Session.Answer.owner hanswers).map _).sum_nat
  have hsource := Session.source_play hturns hx
  refine ⟨hanswers, fun id => ?_, ?_, _, hsource⟩
  · have hleft := ((hshared (owner id)).play hturns).2.find?_eq id rfl
    have hright := ((hshared (owner id)).play hturns').2.find?_eq id rfl
    rw [hleft, hright, hsame]
  · rw [hsource, Session.source_play hturns' hx, hsum]

/-- A bar that follows the scroll progress and is then fixed, and a marker that divides by zero
under another policy.  The marker comes last, or between the commands on the bar. -/
theorem interleaving_immaterial_marker :
    let owner := fun id : String => decide (id = "marker")
    let progress := Term.call "env" [[.identifier "window-scroll-y"]]
    let bar := fun command => Session.Turn.mk false .zero (.command command)
    let change := Session.Turn.mk false .zero (.exchange "bar" "new")
    let marker := fun command => Session.Turn.mk true .ieee (.command command)
    let moving := Recipe.term progress
    let fixed := Recipe.literal ⟨50, some .centimetre⟩
    let quotient := Recipe.calculation "calc" [[progress, .operator "/", .number .zero]]
    let turns := [bar (.build "new" moving), bar (.bind "bar" "new"), bar (.refresh "bar"),
      bar (.build "new" fixed), change, bar (.refresh "bar"),
      marker (.build "marker" quotient), marker (.evaluate "marker" [])]
    let turns' := [bar (.build "new" moving), marker (.build "marker" quotient),
      bar (.bind "bar" "new"), marker (.evaluate "marker" []), bar (.refresh "bar"),
      bar (.build "new" fixed), change, bar (.refresh "bar")]
    let session := Session.start (.recording (.start ⟨50, 500, 100⟩)) .ieee
    let o := Session.play turns session
    let o' := Session.play turns' session
    (∀ turn ∈ turns ++ turns', turn.Confined owner) ∧
      (o.1.filter fun answer => answer.owner = false) =
        (o'.1.filter fun answer => answer.owner = false) ∧
      (o'.1.filter fun answer => answer.owner = false) =
        (Session.play (turns'.filter fun turn => turn.owner = false) session).1 ∧
      o.2.store.find? "bar" = o'.2.store.find? "bar" ∧
      o.2.host.source = o'.2.host.source ∧ o'.2.sampled = 2 := by
  intro owner progress bar change marker moving fixed quotient turns turns' session o o'
  obtain ⟨halone, hschedules⟩ := interleaving_immaterial owner
  have hturns : ∀ turn ∈ turns, turn.Confined owner := by
    simp only [turns, List.forall_mem_cons]
    refine ⟨?_, ?_, ?_, ?_, ?_, ?_, ?_, ?_, List.forall_mem_nil _⟩ <;> exact ⟨by decide, nofun⟩
  have hturns' : ∀ turn ∈ turns', turn.Confined owner := by
    simp only [turns', List.forall_mem_cons]
    refine ⟨?_, ?_, ?_, ?_, ?_, ?_, ?_, ?_, List.forall_mem_nil _⟩ <;> exact ⟨by decide, nofun⟩
  have hsame : ∀ k, turns.filter (fun turn => turn.owner = k) =
      turns'.filter fun turn => turn.owner = k := by
    intro k
    cases k <;> rfl
  obtain ⟨hanswers, hheld, hsource, -⟩ :=
    hschedules turns turns' session ⟨50, 500, 100⟩ 0 hturns hturns' rfl hsame
  have hbar := halone turns' false ⟨50, 500, 100⟩ session session hturns'
    ⟨fun _ _ => rfl, ⟨0, rfl⟩, 0, rfl⟩
  have hcount : o'.2.sampled = 2 := by decide +kernel
  simp only [o, o'] at hcount ⊢
  exact ⟨List.forall_mem_append.mpr ⟨hturns, hturns'⟩, hanswers false, hbar.1, hheld "bar",
    hsource, hcount⟩

end LiveStyle
