/-! # Shortest decimals of a float

A finite float stands for every real that rounds to it.  Among the decimals
`c · 10^k` in that interval the shortest have the largest `k`; of those the nearest
is taken, and the upper one when two lie equally near.  Grids are tried from coarse
to fine in exact natural arithmetic, and on each grid only the two neighbours of
the value can hit the interval first.
-/
namespace LiveStyle.Decimal

/-- The magnitude `significand · 2^exponent` of a finite float. -/
structure Binary where
  significand : Nat
  exponent : Int
  /-- Set at a power of two, below which floats lie twice as dense. -/
  denseBelow : Bool
  deriving DecidableEq, Repr

/-- The decimal `coefficient · 10^exponent`. -/
structure Digits where
  coefficient : Nat
  exponent : Int
  deriving DecidableEq, Repr

/-- The bit above the 52 bits of the fraction, which normal floats leave out. -/
def Binary.hiddenBit : Nat := 0x10000000000000

def Binary.ofBits (bits : Nat) : Binary :=
  let field : Nat := bits / hiddenBit % 2048
  let fraction : Nat := bits % hiddenBit
  if field = 0 then ⟨fraction, -1074, false⟩
  else ⟨hiddenBit + fraction, (field : Int) - 1075, fraction = 0 && field ≠ 1⟩

/-- A quarter of the last binary place and one step of a decimal grid, over a common denominator. -/
structure Scale where
  quarter : Nat
  step : Nat

def Scale.between (binary decimal : Int) : Scale where
  quarter := Nat.pow 2 (binary - 2).toNat * Nat.pow 10 (-decimal).toNat
  step := Nat.pow 2 (2 - binary).toNat * Nat.pow 10 decimal.toNat

namespace Binary

def onScale (b : Binary) (s : Scale) : Nat := 4 * b.significand * s.quarter

/-- Whether the grid point `c` rounds to the float: the ends of the interval lie half way to
the neighbours and belong to it when the significand is even. -/
def rounds (b : Binary) (s : Scale) (c : Nat) : Bool :=
  let below := (4 * b.significand - (if b.denseBelow then 1 else 2)) * s.quarter
  let above := (4 * b.significand + 2) * s.quarter
  if b.significand % 2 = 0 then below ≤ c * s.step && c * s.step ≤ above
  else below < c * s.step && c * s.step < above

/-- The nearer of the two neighbours on the grid of exponent `k`, among those that round to the float. -/
def onGrid? (b : Binary) (k : Int) : Option Nat :=
  let s := Scale.between b.exponent k
  let value := b.onScale s
  let c := value / s.step
  match b.rounds s c, b.rounds s (c + 1) with
  | true, true => some (if value - c * s.step < (c + 1) * s.step - value then c else c + 1)
  | true, false => some c
  | false, true => some (c + 1)
  | false, false => none

def exact (b : Binary) : Digits :=
  if 0 ≤ b.exponent then ⟨b.significand * Nat.pow 2 b.exponent.toNat, 0⟩
  else ⟨b.significand * Nat.pow 5 (-b.exponent).toNat, b.exponent⟩

def search (b : Binary) : Nat → Int → Digits
  | 0, _ => b.exact
  | grids + 1, k =>
    match b.onGrid? k with
    | some c => ⟨c, k⟩
    | none => b.search grids (k - 1)

/-- A decimal exponent above the leading digit, with `0.30103` for the logarithm of two. -/
def coarsest (b : Binary) : Int := (b.significand.log2 + 1 + b.exponent) * 30103 / 100000 + 2

/-- Seventeen digits always suffice, and the coarsest grid is at most three too coarse. -/
def shortest (b : Binary) : Digits := b.search 22 b.coarsest

end Binary
end LiveStyle.Decimal
