import LiveStyle.Evaluation.Host

/-! # Bindings

A host binds one style property to an evaluator and refreshes the binding at every
frame.  A value that can change is delivered at each refresh, a constant one once
until another evaluator is put in its place.
-/
namespace LiveStyle

structure Binding (ε α : Type) where
  tree : ε
  /-- The value delivered last. -/
  current : Option α

namespace Binding

variable {ε α σ : Type} [Evaluator ε α] [ScrollSource σ]

omit [Evaluator ε α] in
def start (tree : ε) : Binding ε α := ⟨tree, none⟩

def isConstant (b : Binding ε α) : Bool := Evaluator.isConstant b.tree

/-- The value to apply, unless a constant one has already been delivered. -/
def refresh (b : Binding ε α) (host : Host σ) : Outcome (Binding ε α) (Option α) σ :=
  if b.current.isSome && b.isConstant then ⟨none, b, host⟩
  else
    let o := Evaluator.evaluate b.tree host
    ⟨some o.value, ⟨o.next, some o.value⟩, o.host⟩

omit [Evaluator ε α] in
/-- Put in another evaluator and give back the one held before; the next refresh delivers. -/
def replace (b : Binding ε α) (tree : ε) : ε × Binding ε α := (b.tree, start tree)

theorem refresh_of_delivered {b : Binding ε α} (host : Host σ) (hcurrent : b.current.isSome = true)
    (hconstant : b.isConstant = true) : b.refresh host = ⟨none, b, host⟩ := by
  simp [refresh, hcurrent, hconstant]

theorem refresh_of_due {b : Binding ε α} (host : Host σ)
    (h : b.current = none ∨ b.isConstant = false) :
    b.refresh host =
      ⟨some (Evaluator.evaluate b.tree host).value,
        ⟨(Evaluator.evaluate b.tree host).next, some (Evaluator.evaluate b.tree host).value⟩,
        (Evaluator.evaluate b.tree host).host⟩ := by
  rcases h with h | h <;> simp [refresh, h]

end Binding
end LiveStyle
