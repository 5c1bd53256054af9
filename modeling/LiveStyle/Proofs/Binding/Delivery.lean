import LiveStyle.Binding
import LiveStyle.Style

/-! # The delivery protocol of bindings

Refreshes, replacements, questions and direct evaluations of the held tree come in any order, over
a source that changes as it likes.  The history of their answers says at every point what the
binding holds: it has delivered since the last replacement what the refreshes since then answered.
Evaluators with a record of their evaluations show that nothing is evaluated behind the answers.
-/
namespace LiveStyle

/-- An evaluator with the values of its evaluations. -/
structure Recorded (ε α : Type) where
  tree : ε
  values : List α

/-- An evaluation is recorded, and a question is not. -/
instance {ε α : Type} [Evaluator ε α] : Evaluator (Recorded ε α) α where
  isConstant recorded := Evaluator.isConstant recorded.tree
  evaluate recorded host :=
    let o := Evaluator.evaluate recorded.tree host
    ⟨o.value, ⟨o.next, recorded.values ++ [o.value]⟩, o.host⟩

namespace Binding

inductive Action (ε σ : Type) where
  | refresh
  | replace (tree : ε)
  | current
  | isConstant
  /-- The held tree is evaluated past the binding. -/
  | evaluate
  | change (f : σ → σ)

inductive Answer (ε α : Type) where
  | refreshed (delivered : Option α)
  | replaced (old : ε)
  | current (value : Option α)
  | flag (constant : Bool)
  | evaluated (value : α)
  | changed

namespace Action

variable {ε σ : Type}

def isRefresh : Action ε σ → Bool
  | refresh => true
  | _ => false

def isReplace : Action ε σ → Bool
  | replace _ => true
  | _ => false

end Action

namespace Answer

variable {ε α : Type}

def isReplaced : Answer ε α → Bool
  | replaced _ => true
  | _ => false

def delivered? : Answer ε α → Option α
  | refreshed delivered => delivered
  | _ => none

/-- The value of the one evaluation that an answer reports, if it reports any. -/
def computed? : Answer ε α → Option α
  | refreshed delivered => delivered
  | evaluated value => some value
  | _ => none

end Answer

section History
variable {ε α : Type}

/-- The answers since the last replacement. -/
def recent (history : List (Answer ε α)) : List (Answer ε α) :=
  (history.reverse.takeWhile fun answer => !answer.isReplaced).reverse

/-- What has been delivered since the last replacement, the latest last. -/
def deliveries (history : List (Answer ε α)) : List α :=
  (recent history).filterMap Answer.delivered?

/-- What the answers since the last replacement report of evaluations. -/
def computed (history : List (Answer ε α)) : List α :=
  (recent history).filterMap Answer.computed?

theorem recent_concat (history : List (Answer ε α)) (answer : Answer ε α) :
    recent (history ++ [answer]) = if answer.isReplaced then [] else recent history ++ [answer] := by
  rw [recent, List.reverse_append, List.reverse_singleton, List.singleton_append,
    List.takeWhile_cons]
  cases answer.isReplaced with
  | true => rfl
  | false => exact List.reverse_cons

theorem recent_append (history : List (Answer ε α)) {answers : List (Answer ε α)}
    (h : ∀ answer ∈ answers, answer.isReplaced = false) :
    recent (history ++ answers) = recent history ++ answers := by
  have hkeep : ∀ answer ∈ answers.reverse, (!answer.isReplaced) = true := by
    intro answer hmem
    rw [h answer (List.mem_reverse.mp hmem)]
    rfl
  rw [recent, List.reverse_append, List.takeWhile_append_of_pos hkeep, List.reverse_append,
    List.reverse_reverse]
  rfl

theorem filterMap_recent_concat {β : Type} (f : Answer ε α → Option β)
    (history : List (Answer ε α)) (answer : Answer ε α) :
    (recent (history ++ [answer])).filterMap f =
      if answer.isReplaced then [] else (recent history).filterMap f ++ (f answer).toList := by
  rw [recent_concat]
  split
  · rfl
  · rw [List.filterMap_append]
    cases hanswer : f answer <;> simp [hanswer]

theorem deliveries_concat (history : List (Answer ε α)) (answer : Answer ε α) :
    deliveries (history ++ [answer]) =
      if answer.isReplaced then [] else deliveries history ++ answer.delivered?.toList :=
  filterMap_recent_concat _ history answer

theorem computed_concat (history : List (Answer ε α)) (answer : Answer ε α) :
    computed (history ++ [answer]) =
      if answer.isReplaced then [] else computed history ++ answer.computed?.toList :=
  filterMap_recent_concat _ history answer

end History

variable {ε α σ : Type} [Evaluator ε α] [ScrollSource σ]

def step (b : Binding ε α) (host : Host σ) : Action ε σ → Outcome (Binding ε α) (Answer ε α) σ
  | .refresh =>
    let o := b.refresh host
    ⟨.refreshed o.value, o.next, o.host⟩
  | .replace tree =>
    let (old, b) := b.replace tree
    ⟨.replaced old, b, host⟩
  | .current => ⟨.current b.current, b, host⟩
  | .isConstant => ⟨.flag b.isConstant, b, host⟩
  | .evaluate =>
    let o := Evaluator.evaluate b.tree host
    ⟨.evaluated o.value, { b with tree := o.next }, o.host⟩
  | .change f => ⟨.changed, b, { host with source := f host.source }⟩

def run : List (Action ε σ) → Binding ε α → Host σ → Outcome (Binding ε α) (List (Answer ε α)) σ
  | [], b, host => ⟨[], b, host⟩
  | action :: actions, b, host =>
    let o := b.step host action
    let rest := run actions o.next o.host
    ⟨o.value :: rest.value, rest.next, rest.host⟩

theorem run_append (earlier actions : List (Action ε σ)) (b : Binding ε α) (host : Host σ) :
    run (earlier ++ actions) b host =
      let first := run earlier b host
      let rest := run actions first.next first.host
      ⟨first.value ++ rest.value, rest.next, rest.host⟩ := by
  induction earlier generalizing b host with
  | nil => rfl
  | cons action earlier ih =>
    rw [List.cons_append, run, ih]
    rfl

/-! ### What the history says -/

/-- The current value is the one delivered last. -/
def Upheld (history : List (Answer ε α)) (b : Binding ε α) : Prop :=
  b.current = (deliveries history).getLast?

omit [Evaluator ε α] in
theorem Upheld.current_eq_none_iff {history : List (Answer ε α)} {b : Binding ε α}
    (h : b.Upheld history) : b.current = none ↔ deliveries history = [] := by
  rw [h, List.getLast?_eq_none_iff]

/-- A refresh delivers nothing and changes nothing, or delivers the value of one evaluation. -/
theorem refresh_cases (b : Binding ε α) (host : Host σ) :
    (b.current.isSome = true ∧ b.isConstant = true ∧ b.refresh host = ⟨none, b, host⟩) ∨
      (b.current = none ∨ b.isConstant = false) ∧
        b.refresh host =
          ⟨some (Evaluator.evaluate b.tree host).value,
            ⟨(Evaluator.evaluate b.tree host).next, some (Evaluator.evaluate b.tree host).value⟩,
            (Evaluator.evaluate b.tree host).host⟩ := by
  cases hcurrent : b.current with
  | none => exact .inr ⟨.inl rfl, refresh_of_due host (.inl hcurrent)⟩
  | some value =>
    cases hconstant : b.isConstant with
    | false => exact .inr ⟨.inr rfl, refresh_of_due host (.inr hconstant)⟩
    | true =>
      have hsome : b.current.isSome = true := Option.isSome_of_eq_some hcurrent
      exact .inl ⟨rfl, rfl, refresh_of_delivered host hsome hconstant⟩

theorem Upheld.step {history : List (Answer ε α)} {b : Binding ε α} (h : b.Upheld history)
    (host : Host σ) (action : Action ε σ) :
    (b.step host action).next.Upheld (history ++ [(b.step host action).value]) := by
  rw [Upheld, deliveries_concat]
  cases action with
  | refresh =>
    rcases refresh_cases b host with ⟨-, -, hrefresh⟩ | ⟨-, hrefresh⟩
    · simp only [Binding.step, hrefresh, Answer.isReplaced, Answer.delivered?, Option.toList_none,
        List.append_nil]
      exact h
    · simp [Binding.step, hrefresh, Answer.isReplaced, Answer.delivered?]
  | replace tree => rfl
  | _ =>
    simp only [Binding.step, Answer.isReplaced, Answer.delivered?, Option.toList_none,
      List.append_nil]
    exact h

theorem Upheld.run {history : List (Answer ε α)} {b : Binding ε α} (h : b.Upheld history)
    (actions : List (Action ε σ)) (host : Host σ) :
    (Binding.run actions b host).next.Upheld (history ++ (Binding.run actions b host).value) := by
  induction actions generalizing history b host with
  | nil => rwa [Binding.run, List.append_nil]
  | cons action actions ih =>
    have hrest := ih (h.step host action) (b.step host action).host
    rwa [List.append_assoc] at hrest

/-- A refresh delivers when the tree can change or nothing has been delivered yet. -/
theorem Upheld.isSome_refresh_iff {history : List (Answer ε α)} {b : Binding ε α}
    (h : b.Upheld history) (host : Host σ) :
    (b.refresh host).value.isSome = true ↔ b.isConstant = false ∨ deliveries history = [] := by
  rw [← h.current_eq_none_iff]
  rcases refresh_cases b host with ⟨hcurrent, hconstant, hrefresh⟩ | ⟨hdue, hrefresh⟩
  · simp [hrefresh, hconstant, ← Option.not_isSome_iff_eq_none, hcurrent]
  · simp only [hrefresh, Option.isSome_some, true_iff]
    exact hdue.symm

/-! ### Nothing is evaluated behind the answers -/

def installed (tree : ε) : List (Action ε σ) → ε
  | [] => tree
  | .replace other :: actions => installed other actions
  | _ :: actions => installed tree actions

/-- The record of the held tree is that of the installed one, continued by what the answers since
then report. -/
def Accounted (history : List (Answer (Recorded ε α) α)) (tree : Recorded ε α)
    (b : Binding (Recorded ε α) α) : Prop :=
  b.tree.values = tree.values ++ computed history

theorem Accounted.step {history : List (Answer (Recorded ε α) α)} {tree : Recorded ε α}
    {b : Binding (Recorded ε α) α} (h : Accounted history tree b) (host : Host σ)
    (action : Action (Recorded ε α) σ) :
    Accounted (history ++ [(b.step host action).value]) (installed tree [action])
      (b.step host action).next := by
  have hcall : (Evaluator.evaluate b.tree host).next.values =
      b.tree.values ++ [(Evaluator.evaluate b.tree host).value] := rfl
  rw [Accounted] at h
  rw [Accounted, computed_concat]
  cases action with
  | refresh =>
    rcases refresh_cases b host with ⟨-, -, hrefresh⟩ | ⟨-, hrefresh⟩
    · simpa [Binding.step, hrefresh, Answer.isReplaced, Answer.computed?, installed] using h
    · simp [Binding.step, hrefresh, hcall, h, Answer.isReplaced, Answer.computed?, installed]
  | replace other => exact (List.append_nil _).symm
  | evaluate => simp [Binding.step, hcall, h, Answer.isReplaced, Answer.computed?, installed]
  | _ => simpa [Binding.step, Answer.isReplaced, Answer.computed?, installed] using h

omit [ScrollSource σ] in
theorem installed_cons (tree : ε) (action : Action ε σ) (actions : List (Action ε σ)) :
    installed tree (action :: actions) = installed (installed tree [action]) actions := by
  cases action <;> rfl

theorem Accounted.run {history : List (Answer (Recorded ε α) α)} {tree : Recorded ε α}
    {b : Binding (Recorded ε α) α} (h : Accounted history tree b)
    (actions : List (Action (Recorded ε α) σ)) (host : Host σ) :
    Accounted (history ++ (Binding.run actions b host).value) (installed tree actions)
      (Binding.run actions b host).next := by
  induction actions generalizing history tree b host with
  | nil => rwa [Binding.run, List.append_nil]
  | cons action actions ih =>
    have hrest := ih (h.step host action) (b.step host action).host
    rwa [List.append_assoc, ← installed_cons] at hrest

/-- The binding without the record. -/
def plain (b : Binding (Recorded ε α) α) : Binding ε α := ⟨b.tree.tree, b.current⟩

def Action.plain : Action (Recorded ε α) σ → Action ε σ
  | refresh => .refresh
  | replace recorded => .replace recorded.tree
  | current => .current
  | isConstant => .isConstant
  | evaluate => .evaluate
  | change f => .change f

def Answer.plain : Answer (Recorded ε α) α → Answer ε α
  | refreshed delivered => .refreshed delivered
  | replaced old => .replaced old.tree
  | current value => .current value
  | flag constant => .flag constant
  | evaluated value => .evaluated value
  | changed => .changed

theorem step_plain (b : Binding (Recorded ε α) α) (host : Host σ)
    (action : Action (Recorded ε α) σ) :
    b.plain.step host action.plain =
      ⟨(b.step host action).value.plain, (b.step host action).next.plain,
        (b.step host action).host⟩ := by
  cases action with
  | refresh =>
    rcases refresh_cases b host with ⟨hcurrent, hconstant, hrefresh⟩ | ⟨hdue, hrefresh⟩
    · have hplain : b.plain.refresh host = ⟨none, b.plain, host⟩ :=
        refresh_of_delivered host hcurrent hconstant
      simp only [Action.plain, step, hplain, hrefresh, Answer.plain]
    · have hplain := refresh_of_due (b := b.plain) host hdue
      simp only [Action.plain, step, hplain, hrefresh, Answer.plain]
      rfl
  | _ => rfl

theorem run_plain (actions : List (Action (Recorded ε α) σ)) (b : Binding (Recorded ε α) α)
    (host : Host σ) :
    run (actions.map Action.plain) b.plain host =
      ⟨(run actions b host).value.map Answer.plain, (run actions b host).next.plain,
        (run actions b host).host⟩ := by
  induction actions generalizing b host with
  | nil => rfl
  | cons action actions ih =>
    rw [List.map_cons, run, step_plain, ih]
    rfl

/-! ### Deliveries between two replacements -/

/-- What evaluations, over any sources, can make of an evaluator. -/
inductive Evaluated (first : ε) : ε → Prop
  | now : Evaluated first first
  | again {τ : Type} [ScrollSource τ] (host : Host τ) {tree : ε} :
      Evaluated first tree → Evaluated first (Evaluator.evaluate tree host).next

/-- Whether the evaluator is constant does not change with its evaluations. -/
def Steady (first : ε) : Prop :=
  ∀ tree, Evaluated first tree → Evaluator.isConstant tree = Evaluator.isConstant first

/-- How often a tree delivers in a stretch with that many refreshes. -/
def due (tree : ε) (delivered : Bool) (refreshes : Nat) : Nat :=
  if Evaluator.isConstant tree then if delivered then 0 else min 1 refreshes else refreshes

theorem due_after_delivery {tree : ε} {delivered : Bool}
    (h : delivered = false ∨ Evaluator.isConstant tree = false) (refreshes : Nat) :
    due tree true refreshes + 1 = due tree delivered (refreshes + 1) := by
  cases hconstant : Evaluator.isConstant tree with
  | false => simp [due, hconstant]
  | true =>
    have hfirst : delivered = false := h.resolve_right (by simp [hconstant])
    simp only [due, hconstant, hfirst, if_true, Bool.false_eq_true, if_false]
    omega

/-- In a stretch without replacements a constant tree delivers once and no other refresh of it
delivers, and a tree that can change delivers at every refresh. -/
theorem length_delivered {tree : ε} (hsteady : Steady tree) {b : Binding ε α}
    (hheld : Evaluated tree b.tree) {stretch : List (Action ε σ)}
    (hstretch : ∀ action ∈ stretch, action.isReplace = false) (host : Host σ) :
    ((run stretch b host).value.filterMap Answer.delivered?).length =
      due tree b.current.isSome (stretch.countP Action.isRefresh) := by
  induction stretch generalizing b host with
  | nil => simp [run, due]
  | cons action stretch ih =>
    obtain ⟨haction, hrest⟩ := List.forall_mem_cons.mp hstretch
    have hflag : b.isConstant = Evaluator.isConstant tree := hsteady b.tree hheld
    rw [run]
    cases action with
    | refresh =>
      rw [List.countP_cons_of_pos rfl]
      rcases refresh_cases b host with ⟨hcurrent, hconstant, hrefresh⟩ | ⟨hdue, hrefresh⟩
      · simp only [step, hrefresh, List.filterMap_cons, Answer.delivered?]
        rw [ih hheld hrest host, due, due, ← hflag, hconstant, hcurrent]
        rfl
      · simp only [step, hrefresh, List.filterMap_cons, Answer.delivered?, List.length_cons]
        rw [ih (.again host hheld) hrest]
        apply due_after_delivery
        rw [← hflag, ← Bool.not_eq_true, Option.not_isSome_iff_eq_none]
        exact hdue
    | replace other => cases haction
    | evaluate => exact ih (.again host hheld) hrest _
    | _ => exact ih hheld hrest _

theorem isReplaced_run {stretch : List (Action ε σ)}
    (h : ∀ action ∈ stretch, action.isReplace = false) (b : Binding ε α) (host : Host σ) :
    ∀ answer ∈ (run stretch b host).value, answer.isReplaced = false := by
  induction stretch generalizing b host with
  | nil => exact nofun
  | cons action stretch ih =>
    obtain ⟨haction, hrest⟩ := List.forall_mem_cons.mp h
    refine List.forall_mem_cons.mpr ⟨?_, ih hrest _ _⟩
    cases action with
    | replace other => cases haction
    | _ => rfl

theorem deliveries_stretch {stretch : List (Action ε σ)}
    (h : ∀ action ∈ stretch, action.isReplace = false) (b : Binding ε α) (host : Host σ) :
    deliveries (run stretch b host).value =
      (run stretch b host).value.filterMap Answer.delivered? := by
  have hrecent := recent_append [] (isReplaced_run h b host)
  rw [List.nil_append] at hrecent
  rw [deliveries, hrecent]
  rfl

theorem deliveries_replaced {stretch : List (Action ε σ)}
    (h : ∀ action ∈ stretch, action.isReplace = false) (earlier : List (Action ε σ)) (tree : ε)
    (b : Binding ε α) (host : Host σ) :
    deliveries (run (earlier ++ .replace tree :: stretch) b host).value =
      deliveries (run stretch (start tree) (run earlier b host).host).value := by
  have hanswers : (run (earlier ++ .replace tree :: stretch) b host).value =
      ((run earlier b host).value ++ [.replaced (run earlier b host).next.tree]) ++
        (run stretch (start tree) (run earlier b host).host).value := by
    rw [run_append, List.append_assoc]
    rfl
  rw [hanswers, deliveries, recent_append _ (isReplaced_run h _ _), recent_concat,
    deliveries_stretch h]
  rfl

omit [ScrollSource σ] in
theorem steady_of_evaluate
    (h : ∀ (τ : Type) [ScrollSource τ] (tree : ε) (host : Host τ),
      Evaluator.isConstant (Evaluator.evaluate tree host).next = Evaluator.isConstant tree)
    (first : ε) : Steady first := by
  intro tree hevaluated
  induction hevaluated with
  | now => rfl
  | again host _ ih => exact (h _ _ host).trans ih

end Binding

theorem Spherical.isConstant_evaluate {σ : Type} [ScrollSource σ] (s : Spherical) (host : Host σ) :
    (s.evaluate host).next.isConstant = s.isConstant := by
  rw [evaluate]
  split
  · rfl
  · exact Memo.keep_constant _ _

theorem Style.isConstant_evaluate {σ : Type} [ScrollSource σ] (style : Style) (host : Host σ) :
    (style.evaluate host).next.isConstant = style.isConstant := by
  cases style with
  | number node => exact node.isConstant_evaluate host
  | spherical s => exact s.isConstant_evaluate host
  | probe probe => rfl

namespace Binding

/-- The delivery protocol, for every evaluator and every history: the current value is the latest
delivery since the last replacement; a refresh delivers exactly when the tree can change or nothing
has been delivered since; the tree is evaluated once for each delivery and each direct evaluation,
with that result, and never else; a replacement gives back the tree held before.  So from one
replacement to the next a constant tree is delivered once, and one that can change at every
refresh. -/
theorem delivery_protocol :
    (∀ (ε α σ : Type) [Evaluator ε α] [ScrollSource σ] (tree : ε) (actions : List (Action ε σ))
      (host : Host σ),
      let now := run actions (start tree) host
      now.next.current = (deliveries now.value).getLast? ∧
        ((now.next.refresh now.host).value.isSome = true ↔
          now.next.isConstant = false ∨ deliveries now.value = []) ∧
        ∀ other, now.next.replace other = (now.next.tree, start other)) ∧
    (∀ (ε α σ : Type) [Evaluator ε α] [ScrollSource σ] (tree : Recorded ε α)
      (actions : List (Action (Recorded ε α) σ)) (host : Host σ),
      let now := run actions (start tree) host
      now.next.tree.values = (installed tree actions).values ++ computed now.value ∧
        (now.next.refresh now.host).next.tree.values =
          now.next.tree.values ++ (now.next.refresh now.host).value.toList) ∧
    (∀ (ε α σ : Type) [Evaluator ε α] [ScrollSource σ]
      (actions : List (Action (Recorded ε α) σ)) (b : Binding (Recorded ε α) α) (host : Host σ),
      run (actions.map Action.plain) b.plain host =
        ⟨(run actions b host).value.map Answer.plain, (run actions b host).next.plain,
          (run actions b host).host⟩) ∧
    (∀ (ε α σ : Type) [Evaluator ε α] [ScrollSource σ] (tree first : ε)
      (earlier stretch : List (Action ε σ)) (host : Host σ), Steady tree →
      (∀ action ∈ stretch, action.isReplace = false) →
        let refreshes := stretch.countP Action.isRefresh
        let delivered := if Evaluator.isConstant tree then min 1 refreshes else refreshes
        (deliveries (run stretch (start tree) host).value).length = delivered ∧
          (deliveries (run (earlier ++ .replace tree :: stretch) (start first) host).value).length =
            delivered) ∧
    ∀ style : Style, Steady style := by
  refine ⟨?_, ?_, ?_, ?_, steady_of_evaluate fun τ _ style host => style.isConstant_evaluate host⟩
  · intro ε α σ _ _ tree actions host now
    have hupheld : (start tree : Binding ε α).Upheld [] := rfl
    have hnow := hupheld.run actions host
    rw [List.nil_append] at hnow
    exact ⟨hnow, hnow.isSome_refresh_iff now.host, fun other => rfl⟩
  · intro ε α σ _ _ tree actions host now
    have haccounted : Accounted [] tree (start tree) := (List.append_nil _).symm
    have hnow := haccounted.run actions host
    rw [List.nil_append] at hnow
    refine ⟨hnow, ?_⟩
    rcases refresh_cases now.next now.host with ⟨-, -, hrefresh⟩ | ⟨-, hrefresh⟩
    · rw [hrefresh]
      exact (List.append_nil _).symm
    · rw [hrefresh]
      rfl
  · exact fun ε α σ _ _ actions b host => run_plain actions b host
  · intro ε α σ _ _ tree first earlier stretch host hsteady hstretch refreshes delivered
    have hstart (host : Host σ) :
        (deliveries (run stretch (start tree) host).value).length = delivered := by
      rw [deliveries_stretch hstretch]
      exact length_delivered hsteady .now hstretch host
    refine ⟨hstart host, ?_⟩
    rw [deliveries_replaced hstretch]
    exact hstart _

/-- A constant probe that has been delivered and evaluated before and is put back delivers its next
value once, however often it is refreshed. -/
theorem delivery_protocol_put_back :
    let first : Style := .probe ⟨true, 0⟩
    let other : Style := .probe ⟨false, 0⟩
    let back : Style := .probe ⟨true, 2⟩
    let host : Host Recording := ⟨Recording.start ⟨50, 500, 100⟩, #[]⟩
    let earlier : List (Action Style Recording) := [.refresh, .evaluate, .replace other, .refresh]
    let stretch : List (Action Style Recording) := [.refresh, .evaluate, .current, .refresh]
    Steady back ∧ (∀ action ∈ stretch, action.isReplace = false) ∧
      (deliveries (run (earlier ++ .replace back :: stretch) (start first) host).value).length =
        1 := by
  intro first other back host earlier stretch
  obtain ⟨-, -, -, hstretches, hsteady⟩ := delivery_protocol
  have hstretch : ∀ action ∈ stretch, action.isReplace = false := by simp [stretch, Action.isReplace]
  exact ⟨hsteady back, hstretch,
    (hstretches Style StyleValue Recording back first earlier stretch host (hsteady back)
      hstretch).2⟩

end Binding
end LiveStyle
