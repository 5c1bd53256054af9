import LiveStyle.Scroll.Source

/-! # Snapshots

A snapshot is one sample of all metrics.  What a source hands out as its snapshots, one after the
other, depends on nothing but the source.  A recording counts each of them once; a source that
gives its metrics one by one is read three times for each, always in the same order.
-/
namespace LiveStyle

namespace ScrollSource

variable {σ : Type} [ScrollSource σ]

def skip : Nat → σ → σ
  | 0, source => source
  | n + 1, source => skip n (metrics source).2

/-- The snapshot that a source gives after `n` others. -/
def nth (n : Nat) (source : σ) : ScrollMetrics := (metrics (skip n source)).1

theorem skip_add (m n : Nat) (source : σ) : skip (m + n) source = skip n (skip m source) := by
  induction m generalizing source with
  | zero => rw [Nat.zero_add, skip]
  | succ m ih => rw [Nat.succ_add, skip, skip, ih]

theorem skip_succ (n : Nat) (source : σ) : skip (n + 1) source = (metrics (skip n source)).2 := by
  rw [skip_add]
  rfl

theorem skip_recording (n : Nat) (source : Recording) :
    skip n source = ⟨source.current, source.samples + n⟩ := by
  induction n generalizing source with
  | zero => rfl
  | succ n ih =>
    rw [skip, ih, Recording.metrics_eq, Recording.counted_current, Recording.counted_samples]
    simp only [Nat.add_assoc, Nat.add_comm 1]

end ScrollSource

inductive ScalarRead where
  | offset
  | extent
  | viewportHeight
  deriving DecidableEq

/-- A source of single metrics, with the readings taken so far.  Its snapshots are the default
ones. -/
structure Traced (σ : Type) where
  source : σ
  reads : List ScalarRead

namespace Traced

variable {σ : Type} [ScrollSource σ]

def record (kind : ScalarRead) (read : σ → Float × σ) (traced : Traced σ) : Float × Traced σ :=
  let (x, source) := read traced.source
  (x, ⟨source, traced.reads ++ [kind]⟩)

instance : ScrollSource (Traced σ) where
  offset := record .offset ScrollSource.offset
  extent := record .extent ScrollSource.extent
  viewportHeight := record .viewportHeight ScrollSource.viewportHeight

theorem reads_metrics (traced : Traced σ) :
    (ScrollSource.metrics traced).2.reads =
      traced.reads ++ [.offset, .extent, .viewportHeight] := by
  change traced.reads ++ [.offset] ++ [.extent] ++ [.viewportHeight] = _
  simp only [List.append_assoc, List.cons_append, List.nil_append]

theorem reads_skip (n : Nat) (traced : Traced σ) :
    (ScrollSource.skip n traced).reads =
      traced.reads ++ (List.replicate n [.offset, .extent, .viewportHeight]).flatten := by
  induction n generalizing traced with
  | zero => simp [ScrollSource.skip]
  | succ n ih =>
    rw [ScrollSource.skip, ih, reads_metrics, List.replicate_succ, List.flatten_cons,
      List.append_assoc]

end Traced
end LiveStyle
