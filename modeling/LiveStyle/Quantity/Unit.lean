/-! # Units of measure

Angles are written in degrees or radians, lengths in metres, centimetres or
millimetres.  The two dimensions never convert into each other, and each has one
base unit, in which all arithmetic is done.
-/
namespace LiveStyle

inductive Dimension where
  | angle
  | length
  deriving DecidableEq, Repr

inductive MeasureUnit where
  | degree
  | radian
  | metre
  | centimetre
  | millimetre
  deriving DecidableEq, Repr

namespace Dimension

def baseUnit : Dimension → MeasureUnit
  | angle => .radian
  | length => .metre

def name : Dimension → String
  | angle => "angle"
  | length => "length"

end Dimension

namespace MeasureUnit

def symbol : MeasureUnit → String
  | degree => "deg"
  | radian => "rad"
  | metre => "m"
  | centimetre => "cm"
  | millimetre => "mm"

/-- Suffixes are exact: no other spelling names a unit. -/
def ofSymbol? : String → Option MeasureUnit
  | "deg" => some degree
  | "rad" => some radian
  | "m" => some metre
  | "cm" => some centimetre
  | "mm" => some millimetre
  | _ => none

def dimension : MeasureUnit → Dimension
  | degree | radian => .angle
  | metre | centimetre | millimetre => .length

def base (u : MeasureUnit) : MeasureUnit := u.dimension.baseUnit

/-- The float nearest to π / 180. -/
def radiansPerDegree : Float := 0.017453292519943295

/-- Restate in the base unit an amount given in `u`; amounts in a base unit keep their bits. -/
def inBase (u : MeasureUnit) (amount : Float) : Float :=
  match u with
  | degree => amount * radiansPerDegree
  | centimetre => amount / 100
  | millimetre => amount / 1000
  | radian | metre => amount

@[simp] theorem ofSymbol?_symbol (u : MeasureUnit) : ofSymbol? u.symbol = some u := by
  cases u <;> rfl

@[simp] theorem base_base (u : MeasureUnit) : u.base.base = u.base := by
  cases u <;> rfl

@[simp] theorem inBase_base (u : MeasureUnit) (x : Float) : u.base.inBase x = x := by
  cases u <;> rfl

theorem base_eq_base_iff (u v : MeasureUnit) : u.base = v.base ↔ u.dimension = v.dimension := by
  cases u <;> cases v <;> decide

end MeasureUnit
end LiveStyle
