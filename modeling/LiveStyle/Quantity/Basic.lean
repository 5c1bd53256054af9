import LiveStyle.Decimal.Positional
import LiveStyle.Quantity.Unit

/-! # Quantities

A quantity is a float with an optional unit.  Every value of a style expression is
one; the unitless zero stands in for whatever cannot be built or computed.
-/
namespace LiveStyle

structure Quantity where
  number : Float
  unit : Option MeasureUnit
  deriving DecidableEq

namespace Quantity

def unitless (number : Float) : Quantity := ⟨number, none⟩

def zero : Quantity := unitless 0

instance : Inhabited Quantity := ⟨zero⟩

/-- Restate a quantity in its base unit; unitless numbers pass through. -/
def toBase (q : Quantity) : Quantity :=
  match q.unit with
  | some u => ⟨u.inBase q.number, some u.base⟩
  | none => q

def chars (q : Quantity) : List Char :=
  Decimal.chars q.number ++ (q.unit.elim "" MeasureUnit.symbol).toList

def text (q : Quantity) : String := String.ofList q.chars

/-- Equal content: numbers compare as floats, so a NaN differs from itself and the zeros agree. -/
def same (p q : Quantity) : Bool := p.number == q.number && p.unit = q.unit

/-- Degrees become radians, centimetres and millimetres metres; other numbers stay as they are. -/
theorem toBase_number (q : Quantity) :
    q.toBase.number =
      match q.unit with
      | some .degree => q.number * 0.017453292519943295
      | some .centimetre => q.number / 100
      | some .millimetre => q.number / 1000
      | some .radian | some .metre | none => q.number := by
  rcases q with ⟨x, _ | u⟩
  · rfl
  · cases u <;> rfl

theorem toBase_unit (q : Quantity) : q.toBase.unit = q.unit.map MeasureUnit.base := by
  rcases q with ⟨x, _ | u⟩ <;> rfl

@[simp] theorem toBase_toBase (q : Quantity) : q.toBase.toBase = q.toBase := by
  rcases q with ⟨x, _ | u⟩
  · rfl
  · simp [toBase]

end Quantity
end LiveStyle
