/-! # Scroll metrics

The scroll state of the document that hosts the styled content, and the fraction of
its range already scrolled.
-/
namespace LiveStyle

structure ScrollMetrics where
  offset : Float
  /-- Full scrollable height. -/
  extent : Float
  viewportHeight : Float
  deriving DecidableEq

namespace ScrollMetrics

def zero : ScrollMetrics := ⟨0, 0, 0⟩

instance : Inhabited ScrollMetrics := ⟨zero⟩

/-- Zero when nothing can scroll or the quotient is not finite. -/
def fraction (m : ScrollMetrics) : Float :=
  let range := m.extent - m.viewportHeight
  if range == 0 then 0
  else
    let quotient := m.offset / range
    if quotient.isFinite then quotient else 0

def same (m n : ScrollMetrics) : Bool :=
  m.offset == n.offset && m.extent == n.extent && m.viewportHeight == n.viewportHeight

theorem fraction_eq_zero_or_isFinite (m : ScrollMetrics) :
    m.fraction = 0 ∨ m.fraction.isFinite = true := by
  unfold fraction
  dsimp only
  split
  · exact .inl rfl
  · split
    · exact .inr ‹_›
    · exact .inl rfl

end ScrollMetrics
end LiveStyle
