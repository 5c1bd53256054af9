import LiveStyle.Diagnostics.Event
import LiveStyle.Scroll.Source

/-! # Evaluation in a host

Evaluating reads the host's scroll source, adds to its log and may fill the memory of
what is evaluated; all three are handed on as values.  The interface of evaluators is
open, so that a host can add its own.
-/
namespace LiveStyle

structure Host (σ : Type) where
  source : σ
  log : Log

namespace Host

variable {σ : Type}

def note (host : Host σ) (event : Event) : Host σ := { host with log := host.log.push event }

def reading {α : Type} (host : Host σ) (read : σ → α × σ) : α × Host σ :=
  let (a, source) := read host.source
  (a, { host with source })

@[simp] theorem note_log (host : Host σ) (event : Event) :
    (host.note event).log = host.log.push event := rfl

end Host

/-- The value of an evaluation, with what was evaluated and the host as they are afterwards. -/
structure Outcome (ε α σ : Type) where
  value : α
  next : ε
  host : Host σ

/-- Whatever yields a value on demand.  A constant evaluator gives the same value each time. -/
class Evaluator (ε : Type) (α : outParam Type) where
  isConstant : ε → Bool
  evaluate {σ : Type} [ScrollSource σ] : ε → Host σ → Outcome ε α σ

end LiveStyle
