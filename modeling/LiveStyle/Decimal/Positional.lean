import LiveStyle.Decimal.Shortest

/-! # Floats as text

Floats are written with their shortest digits in full positional notation: no
exponent, no point after an integer, at least one digit before a point.  A minus
sign stands before every negative float, zero included, but not before `NaN`.
-/
namespace LiveStyle.Decimal

namespace Digits

/-- Cut `places` digits off for the fraction, after padding so that one digit stays in front. -/
def withPoint (digits : List Char) (places : Nat) : List Char :=
  let padded := List.replicate (places + 1 - digits.length) '0' ++ digits
  let whole := padded.length - places
  padded.take whole ++ '.' :: padded.drop whole

def positional (d : Digits) : List Char :=
  let digits := Nat.toDigits 10 d.coefficient
  if 0 ≤ d.exponent then digits ++ List.replicate d.exponent.toNat '0'
  else withPoint digits (-d.exponent).toNat

end Digits

/-- The sign bit is set, as it is for the negative zero. -/
def isNegative (x : Float) : Bool := 0x8000000000000000 ≤ x.toBits.toNat

def magnitude (x : Float) : List Char :=
  let b := Binary.ofBits x.toBits.toNat
  if b.significand = 0 then ['0'] else b.shortest.positional

def chars (x : Float) : List Char :=
  if x.isNaN then ['N', 'a', 'N']
  else
    let unsigned := if x.isInf then ['i', 'n', 'f'] else magnitude x
    if isNegative x then '-' :: unsigned else unsigned

def text (x : Float) : String := String.ofList (chars x)

end LiveStyle.Decimal
