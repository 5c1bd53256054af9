import LiveStyle.Quantity.Basic

/-! # Spherical values

An azimuth and an inclination in radians with a radius, which is a length in metres or
a keyword that stands for one.
-/
namespace LiveStyle

def autoKeyword : String := "auto"

inductive Radius where
  | metres (length : Float)
  | keyword (name : String)
  deriving DecidableEq

namespace Radius

/-- The radius of a value that names none. -/
def auto : Radius := keyword autoKeyword

def metres? : Radius → Option Float
  | metres length => some length
  | keyword _ => none

def text : Radius → String
  | metres length => Decimal.text length
  | keyword name => name

def same : Radius → Radius → Bool
  | metres x, metres y => x == y
  | keyword a, keyword b => a = b
  | _, _ => false

end Radius

structure SphericalValue where
  azimuth : Float
  inclination : Float
  radius : Radius
  deriving DecidableEq

namespace SphericalValue

def zero : SphericalValue := ⟨0, 0, .auto⟩

instance : Inhabited SphericalValue := ⟨zero⟩

def text (v : SphericalValue) : String :=
  "[" ++ Decimal.text v.azimuth ++ ", " ++ Decimal.text v.inclination ++ ", " ++ v.radius.text ++ "]"

def same (v w : SphericalValue) : Bool :=
  v.azimuth == w.azimuth && v.inclination == w.inclination && v.radius.same w.radius

end SphericalValue
end LiveStyle
