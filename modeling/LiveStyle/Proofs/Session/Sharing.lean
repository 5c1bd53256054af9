import LiveStyle.Proofs.Session.Repeatability
import LiveStyle.Session.Run

/-! # What requests share

A request reaches the entries that it names, and the scroll source.  Sessions that agree on these
entries and stand at the same metrics give it the same reply, take as many samples for it and agree
afterwards; their other entries stay as they were.
-/
namespace LiveStyle

/-- What is built does not depend on what has been reported. -/
theorem Recipe.build_fst (policy : DivisionPolicy) (recipe : Recipe) (log log' : Log) :
    (recipe.build policy log).1 = (recipe.build policy log').1 := by
  cases recipe with
  | term term => simp only [build, Node.ofTerm_fst]
  | calculation name arguments => simp only [build, Node.ofCalculation_eq_leaf]
  | spherical expressions =>
    simp only [build, Spherical.ofExpressions_fst policy expressions log log']
  | _ => rfl

namespace Session

namespace Store

theorem find?_erase_self (store : Store) (id : String) : (store.erase id).find? id = none := by
  apply List.lookup_eq_none_iff.mpr
  intro entry hmem
  have hne : entry.1 ≠ id := by simpa using (List.mem_filter.mp hmem).2
  simpa using hne.symm

theorem find?_erase_of_ne (store : Store) {id other : String} (h : other ≠ id) :
    (store.erase id).find? other = store.find? other := by
  have hne : (other == id) = false := by simpa using h
  rw [← find?_put_of_ne store (.style (.number .zero)) h]
  simp [find?, put, List.lookup_cons, hne]

end Store

def Command.names : Command → List String
  | build id _ => [id]
  | combine id _ left right => [id, left, right]
  | bind id style => [id, style]
  | replace id style keep => id :: style :: keep.toList
  | refresh id => [id]
  | current id => [id]
  | evaluate id _ => [id]
  | isConstant id => [id]
  | drop id => [id]
  | set _ => []
  | read _ => []
  | division _ => []

/-- Put a held style into a binding, and hold what it replaces in its stead. -/
def exchange (session : Session) (id style : String) : Except Refusal (Reply × Session) := do
  let (tree, rest) ← session.takeStyle style
  let binding ← session.findBinding id
  let (old, binding) := binding.replace tree
  return (.style old, (rest.put id (.binding binding)).put style (.style old))

/-- A command, or an exchange, which evaluates nothing. -/
inductive Request where
  | command (command : Command)
  | exchange (id style : String)

def Request.names : Request → List String
  | .command c => c.names
  | .exchange id style => [id, style]

def attempt (session : Session) : Request → Except Refusal (Reply × Session)
  | .command command => session.run command
  | .exchange id style => session.exchange id style

/-- Carry out a request; the session stays as it was when the request is refused. -/
def answer (session : Session) (request : Request) : Except Refusal Reply × Session :=
  match session.attempt request with
  | .ok (reply, session) => (.ok reply, session)
  | .error refusal => (.error refusal, session)

theorem answer_command (session : Session) (command : Command) :
    session.answer (.command command) = session.step command := rfl

/-- The same refusal, or results that are related. -/
inductive Both {α β : Type} (R : α → β → Prop) : Except Refusal α → Except Refusal β → Prop
  | ok {p : α} {q : β} : R p q → Both R (.ok p) (.ok q)
  | error (refusal : Refusal) : Both R (.error refusal) (.error refusal)

theorem Both.bind {α β γ δ : Type} {R : α → β → Prop} {S : γ → δ → Prop} {p : Except Refusal α}
    {q : Except Refusal β} {f : α → Except Refusal γ} {g : β → Except Refusal δ} (h : Both R p q)
    (hnext : ∀ a b, R a b → Both S (f a) (g b)) : Both S (p >>= f) (q >>= g) := by
  cases h with
  | ok h => exact hnext _ _ h
  | error refusal => exact .error refusal

/-- Two sessions agree on some entries and on the metrics, at counts of samples of their own, and
all other entries of the one are as they were at first. -/
structure Agree (own : String → Prop) (current : ScrollMetrics) (first : Session)
    (samples samples' : Nat) (x y : Session) : Prop where
  find?_eq : ∀ id, own id → x.store.find? id = y.store.find? id
  find?_first : ∀ id, ¬ own id → x.store.find? id = first.store.find? id
  source_left : x.host.source = .recording ⟨current, samples⟩
  source_right : y.host.source = .recording ⟨current, samples'⟩

namespace Agree
variable {own : String → Prop} {current : ScrollMetrics} {first x y : Session}
  {samples samples' : Nat} (h : Agree own current first samples samples' x y) {id : String}
include h

/-- One own entry may change, as long as it does in both. -/
theorem withStore (hid : own id) {store store' : Store} (hself : store.find? id = store'.find? id)
    (hother : ∀ other, other ≠ id → store.find? other = x.store.find? other)
    (hother' : ∀ other, other ≠ id → store'.find? other = y.store.find? other) :
    Agree own current first samples samples' { x with store } { y with store := store' } := by
  refine ⟨fun other hown => ?_, fun other hown => ?_, h.source_left, h.source_right⟩
  · by_cases heq : other = id
    · subst heq
      exact hself
    · calc store.find? other = x.store.find? other := hother other heq
        _ = y.store.find? other := h.find?_eq other hown
        _ = store'.find? other := (hother' other heq).symm
  · have hne : other ≠ id := fun heq => hown (heq ▸ hid)
    exact (hother other hne).trans (h.find?_first other hown)

theorem put (hid : own id) (held : Held) :
    Agree own current first samples samples' (x.put id held) (y.put id held) := by
  apply h.withStore hid
  · rw [Store.find?_put_self, Store.find?_put_self]
  · exact fun other hne => Store.find?_put_of_ne x.store held hne
  · exact fun other hne => Store.find?_put_of_ne y.store held hne

theorem erase (hid : own id) :
    Agree own current first samples samples' { x with store := x.store.erase id }
      { y with store := y.store.erase id } := by
  apply h.withStore hid
  · rw [Store.find?_erase_self, Store.find?_erase_self]
  · exact fun other hne => Store.find?_erase_of_ne x.store hne
  · exact fun other hne => Store.find?_erase_of_ne y.store hne

theorem withPolicy (policy policy' : DivisionPolicy) :
    Agree own current first samples samples' { x with policy }
      { y with policy := policy' } :=
  ⟨h.find?_eq, h.find?_first, h.source_left, h.source_right⟩

theorem withHost {host host' : Host Environment} {count count' : Nat}
    (hhost : host.source = .recording ⟨current, count⟩)
    (hhost' : host'.source = .recording ⟨current, count'⟩) :
    Agree own current first count count' { x with host := host } { y with host := host' } :=
  ⟨h.find?_eq, h.find?_first, hhost, hhost'⟩

theorem withLog (log log' : Log) :
    Agree own current first samples samples' { x with host := { x.host with log } }
      { y with host := { y.host with log := log' } } :=
  h.withHost h.source_left h.source_right

section Evaluated
variable {ε α : Type} {f : Host Environment → Outcome ε α Environment} (hf : Repeatable f)
include hf

theorem evaluated :
    (f x.host).value = (f y.host).value ∧ (f x.host).next = (f y.host).next ∧
      ∃ taken, Agree own current first (samples + taken) (samples' + taken)
        { x with host := (f x.host).host } { y with host := (f y.host).host } := by
  obtain ⟨value, next, taken, hrepeats⟩ := hf current
  obtain ⟨hvalue, hnext, hsource⟩ := hrepeats x.host samples h.source_left
  obtain ⟨hvalue', hnext', hsource'⟩ := hrepeats y.host samples' h.source_right
  exact ⟨hvalue.trans hvalue'.symm, hnext.trans hnext'.symm, taken, h.withHost hsource hsource'⟩

theorem evaluatedInPlace (hid : own id) (held : ε → Held) :
    (f x.host).value = (f y.host).value ∧
      ∃ taken, Agree own current first (samples + taken) (samples' + taken)
        (Session.put { x with host := (f x.host).host } id (held (f x.host).next))
        (Session.put { y with host := (f y.host).host } id (held (f y.host).next)) := by
  obtain ⟨hvalue, hnext, taken, hhosts⟩ := h.evaluated hf
  refine ⟨hvalue, taken, ?_⟩
  rw [hnext]
  exact hhosts.put hid _

end Evaluated

theorem takeStyle (hid : own id) :
    Both (fun p q => p.1 = q.1 ∧ Agree own current first samples samples' p.2 q.2)
      (x.takeStyle id) (y.takeStyle id) := by
  rw [Session.takeStyle, Session.takeStyle, h.find?_eq id hid]
  rcases y.store.find? id with _ | style | binding
  · exact .error _
  · exact .ok ⟨rfl, h.erase hid⟩
  · exact .error _

theorem takeNode (hid : own id) :
    Both (fun p q => p.1 = q.1 ∧ Agree own current first samples samples' p.2 q.2)
      (x.takeNode id) (y.takeNode id) := by
  have hstyle := h.takeStyle hid
  rw [Session.takeNode, Session.takeNode]
  generalize x.takeStyle id = p, y.takeStyle id = q at hstyle
  rcases hstyle with @⟨⟨style, x'⟩, ⟨_, y'⟩, rfl, h'⟩ | refusal
  · cases style with
    | number node => exact .ok ⟨rfl, h'⟩
    | _ => exact .error _
  · exact .error refusal

theorem find (hid : own id) : x.find id = y.find id := by
  rw [Session.find, Session.find, h.find?_eq id hid]

theorem findBinding (hid : own id) : x.findBinding id = y.findBinding id := by
  rw [Session.findBinding, Session.findBinding, h.find?_eq id hid]

end Agree

def Reading.reply (current : ScrollMetrics) : Reading → Reply
  | offset => .float current.offset
  | extent => .float current.extent
  | viewportHeight => .float current.viewportHeight
  | metrics => .metrics current
  | named .windowScrollY => .float current.fraction

/-- A reading takes one sample. -/
theorem read_recording {session : Session} {current : ScrollMetrics} {samples : Nat}
    (h : session.host.source = .recording ⟨current, samples⟩) (reading : Reading) :
    session.read reading = (reading.reply current, { session with
      host := { session.host with source := .recording ⟨current, samples + 1⟩ } }) := by
  obtain ⟨⟨source, log⟩, policy, store⟩ := session
  subst h
  cases reading <;> rfl

section Run
variable {own : String → Prop} {current : ScrollMetrics} {first x y : Session}
  {samples samples' : Nat}

/-- The same refusal, or the same reply with sessions that agree again after as many samples. -/
abbrev Alike (own : String → Prop) (current : ScrollMetrics) (first : Session)
    (samples samples' : Nat) : Except Refusal (Reply × Session) → Except Refusal (Reply × Session) →
    Prop :=
  Both fun p q => p.1 = q.1 ∧
    ∃ taken, Agree own current first (samples + taken) (samples' + taken) p.2 q.2

variable (h : Agree own current first samples samples' x y) {id : String} (hid : own id)
include h hid

theorem alike_build (hpolicy : x.policy = y.policy) (recipe : Recipe) :
    Alike own current first samples samples' (x.run (.build id recipe))
      (y.run (.build id recipe)) := by
  have hstyle : (recipe.build x.policy x.host.log).1 = (recipe.build y.policy y.host.log).1 := by
    rw [hpolicy]
    exact Recipe.build_fst y.policy recipe x.host.log y.host.log
  rw [run, run]
  generalize recipe.build x.policy x.host.log = built, recipe.build y.policy y.host.log = built'
    at hstyle
  obtain ⟨style, log⟩ := built
  obtain ⟨_, log'⟩ := built'
  cases hstyle
  exact .ok ⟨rfl, 0, (h.withLog log log').put hid _⟩

/-- The evaluator that is replaced is evaluated, and may be kept. -/
theorem alike_replace {style : String} (hstyle : own style) {keep : Option String}
    (hkeep : ∀ name ∈ keep, own name) :
    Alike own current first samples samples' (x.run (.replace id style keep))
      (y.run (.replace id style keep)) := by
  apply (h.takeStyle hstyle).bind
  rintro ⟨tree, rest⟩ ⟨_, rest'⟩ ⟨rfl, hrest⟩
  change Both _ (x.findBinding id >>= _) (y.findBinding id >>= _)
  rw [h.findBinding hid]
  cases y.findBinding id with
  | error refusal => exact .error refusal
  | ok binding =>
    obtain ⟨hvalue, hnext, taken, hhosts⟩ := hrest.evaluated binding.tree.repeatable_evaluate
    have hput := hhosts.put hid (.binding (Binding.start tree))
    refine .ok ⟨congrArg (fun value => Reply.value (some value)) hvalue, taken, ?_⟩
    cases keep with
    | none => exact hput
    | some name =>
      change Agree _ _ _ _ _ (put _ name (.style (binding.tree.evaluate rest.host).next)) _
      rw [hnext]
      exact hput.put (hkeep name rfl) _

theorem alike_refresh :
    Alike own current first samples samples' (x.run (.refresh id))
      (y.run (.refresh id)) := by
  rw [run, run, h.findBinding hid]
  cases y.findBinding id with
  | error refusal => exact .error refusal
  | ok binding =>
    obtain ⟨hvalue, taken, hput⟩ := h.evaluatedInPlace binding.repeatable_refresh hid .binding
    exact .ok ⟨congrArg Reply.value hvalue, taken, hput⟩

theorem alike_evaluate (path : List Node.Step) :
    Alike own current first samples samples' (x.run (.evaluate id path))
      (y.run (.evaluate id path)) := by
  rw [run, run, h.find hid]
  rcases y.find id with refusal | style | binding
  · exact .error refusal
  · obtain ⟨hvalue, taken, hput⟩ :=
      h.evaluatedInPlace (style.repeatable_evaluateAt path) hid .style
    exact .ok ⟨congrArg Reply.value hvalue, taken, hput⟩
  · obtain ⟨hvalue, taken, hput⟩ :=
      h.evaluatedInPlace (binding.tree.repeatable_evaluateAt path) hid
        fun tree => .binding { binding with tree }
    exact .ok ⟨congrArg Reply.value hvalue, taken, hput⟩

omit hid in
theorem alike_run (hpolicy : x.policy = y.policy) (command : Command)
    (hnames : ∀ id ∈ command.names, own id) (hset : ∀ metrics, command ≠ .set metrics) :
    Alike own current first samples samples' (x.run command) (y.run command) := by
  cases command with
  | set metrics => exact absurd rfl (hset metrics)
  | read reading =>
    rw [run, run, read_recording h.source_left, read_recording h.source_right]
    exact .ok ⟨rfl, 1, h.withHost rfl rfl⟩
  | division policy => exact .ok ⟨rfl, 0, h.withPolicy policy policy⟩
  | build id recipe => exact alike_build h (hnames id (by simp [Command.names])) hpolicy recipe
  | combine id symbol left right =>
    have hid : own id := hnames id (by simp [Command.names])
    have hleft : own left := hnames left (by simp [Command.names])
    have hright : own right := hnames right (by simp [Command.names])
    apply (h.takeNode hleft).bind
    rintro ⟨l, rest⟩ ⟨_, rest'⟩ ⟨rfl, hrest⟩
    apply (hrest.takeNode hright).bind
    rintro ⟨r, rest⟩ ⟨_, rest'⟩ ⟨rfl, hrest⟩
    rw [hpolicy]
    exact .ok ⟨rfl, 0, hrest.put hid _⟩
  | bind id style =>
    have hid : own id := hnames id (by simp [Command.names])
    have hstyle : own style := hnames style (by simp [Command.names])
    apply (h.takeStyle hstyle).bind
    rintro ⟨tree, rest⟩ ⟨_, rest'⟩ ⟨rfl, hrest⟩
    exact .ok ⟨rfl, 0, hrest.put hid _⟩
  | replace id style keep =>
    have hid : own id := hnames id (by simp [Command.names])
    have hstyle : own style := hnames style (by simp [Command.names])
    exact alike_replace h hid hstyle fun name hname => hnames name (by simp_all [Command.names])
  | refresh id => exact alike_refresh h (hnames id (by simp [Command.names]))
  | current id =>
    have hid : own id := hnames id (by simp [Command.names])
    rw [run, run, h.findBinding hid]
    cases y.findBinding id with
    | error refusal => exact .error refusal
    | ok binding => exact .ok ⟨rfl, 0, h⟩
  | evaluate id path => exact alike_evaluate h (hnames id (by simp [Command.names])) path
  | isConstant id =>
    have hid : own id := hnames id (by simp [Command.names])
    rw [run, run, h.find hid]
    cases y.find id with
    | error refusal => exact .error refusal
    | ok held => exact .ok ⟨rfl, 0, h⟩
  | drop id =>
    have hid : own id := hnames id (by simp [Command.names])
    rw [run, run, h.find?_eq id hid]
    exact .ok ⟨rfl, 0, h.erase hid⟩

theorem alike_exchange {style : String} (hstyle : own style) :
    Alike own current first samples samples' (x.exchange id style)
      (y.exchange id style) := by
  apply (h.takeStyle hstyle).bind
  rintro ⟨tree, rest⟩ ⟨_, rest'⟩ ⟨rfl, hrest⟩
  change Both _ (x.findBinding id >>= _) (y.findBinding id >>= _)
  rw [h.findBinding hid]
  cases y.findBinding id with
  | error refusal => exact .error refusal
  | ok binding => exact .ok ⟨rfl, 0, (hrest.put hid _).put hstyle _⟩

omit hid in
/-- A refused request leaves both sessions as they are. -/
theorem answer_agree (hpolicy : x.policy = y.policy) (request : Request)
    (hnames : ∀ id ∈ request.names, own id) (hset : ∀ metrics, request ≠ .command (.set metrics)) :
    (x.answer request).1 = (y.answer request).1 ∧
      ∃ taken, Agree own current first (samples + taken) (samples' + taken)
        (x.answer request).2 (y.answer request).2 := by
  have hattempt : Alike own current first samples samples' (x.attempt request)
      (y.attempt request) := by
    cases request with
    | command command =>
      exact alike_run h hpolicy command hnames fun metrics heq =>
        hset metrics (congrArg Request.command heq)
    | exchange id style =>
      exact alike_exchange h (hnames id (by simp [Request.names]))
        (hnames style (by simp [Request.names]))
  rw [answer, answer]
  generalize x.attempt request = p, y.attempt request = q at hattempt
  cases hattempt with
  | @ok p q halike =>
    obtain ⟨reply, x'⟩ := p
    obtain ⟨_, y'⟩ := q
    obtain ⟨rfl, hagree⟩ := halike
    exact ⟨rfl, hagree⟩
  | error refusal => exact ⟨rfl, 0, h⟩

end Run
end Session
end LiveStyle
