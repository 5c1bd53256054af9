import LiveStyle.Scroll.Metrics

/-! # Sources of scroll metrics

Hosts supply the metrics through a source whose state may change at every reading.
A source gives the three metrics one by one; reading all of them at once is reading
offset, extent and viewport height in this order unless the source says otherwise.
-/
namespace LiveStyle

class ScrollSource (σ : Type) where
  offset : σ → Float × σ
  extent : σ → Float × σ
  viewportHeight : σ → Float × σ
  /-- Sample all metrics at once. -/
  metrics : σ → ScrollMetrics × σ := fun s =>
    let (o, s) := offset s
    let (e, s) := extent s
    let (v, s) := viewportHeight s
    (⟨o, e, v⟩, s)

/-- The source of a host that attaches nothing: every metric is zero. -/
structure Detached where
  deriving DecidableEq, Repr

instance : ScrollSource Detached where
  offset s := (0, s)
  extent s := (0, s)
  viewportHeight s := (0, s)

structure Recording where
  current : ScrollMetrics
  samples : Nat
  deriving DecidableEq

namespace Recording

def start (m : ScrollMetrics) : Recording := ⟨m, 0⟩

def set (r : Recording) (m : ScrollMetrics) : Recording := { r with current := m }

def counted (r : Recording) : Recording := { r with samples := r.samples + 1 }

/-- A single metric is a sample of its own, and so are all metrics together. -/
instance : ScrollSource Recording where
  offset r := (r.current.offset, r.counted)
  extent r := (r.current.extent, r.counted)
  viewportHeight r := (r.current.viewportHeight, r.counted)
  metrics r := (r.current, r.counted)

@[simp] theorem metrics_eq (r : Recording) : ScrollSource.metrics r = (r.current, r.counted) := rfl

@[simp] theorem counted_samples (r : Recording) : r.counted.samples = r.samples + 1 := rfl

@[simp] theorem counted_current (r : Recording) : r.counted.current = r.current := rfl

end Recording

/-- A list of readings handed out one by one; the last one is repeated for ever. -/
structure Replay where
  readings : List Float
  reads : Nat
  deriving DecidableEq

namespace Replay

def start (readings : List Float) : Replay := ⟨readings, 0⟩

/-- The next reading; zero when there never was one. -/
def next : Replay → Float × Replay
  | ⟨[], n⟩ => (0, ⟨[], n + 1⟩)
  | ⟨[x], n⟩ => (x, ⟨[x], n + 1⟩)
  | ⟨x :: rest, n⟩ => (x, ⟨rest, n + 1⟩)

instance : ScrollSource Replay where
  offset := next
  extent := next
  viewportHeight := next

@[simp] theorem next_reads (r : Replay) : r.next.2.reads = r.reads + 1 := by
  rcases r with ⟨_ | ⟨x, _ | ⟨y, rest⟩⟩, n⟩ <;> rfl

end Replay

inductive Environment where
  | detached (source : Detached)
  | recording (source : Recording)
  | replay (source : Replay)

namespace Environment

def read {α : Type} (reading : {σ : Type} → [ScrollSource σ] → σ → α × σ) :
    Environment → α × Environment
  | detached s => let (a, s) := reading s; (a, detached s)
  | recording s => let (a, s) := reading s; (a, recording s)
  | replay s => let (a, s) := reading s; (a, replay s)

instance : ScrollSource Environment where
  offset := read ScrollSource.offset
  extent := read ScrollSource.extent
  viewportHeight := read ScrollSource.viewportHeight
  metrics := read ScrollSource.metrics

/-- How often the source was read, if it counts. -/
def samples : Environment → Option Nat
  | detached _ => none
  | recording s => some s.samples
  | replay s => some s.reads

end Environment

/-- What `env` can name. -/
inductive Variable where
  /-- Vertical scroll progress, between zero and one for positions in range. -/
  | windowScrollY
  deriving DecidableEq, Repr

namespace Variable

def name : Variable → String
  | windowScrollY => "window-scroll-y"

def ofName? : String → Option Variable
  | "window-scroll-y" => some windowScrollY
  | _ => none

/-- The variable's value now, from one sample of all metrics. -/
def read {σ : Type} [ScrollSource σ] (v : Variable) (source : σ) : Float × σ :=
  match v with
  | windowScrollY => let (m, source) := ScrollSource.metrics source; (m.fraction, source)

@[simp] theorem ofName?_name (v : Variable) : ofName? v.name = some v := by
  cases v; rfl

end Variable
end LiveStyle
