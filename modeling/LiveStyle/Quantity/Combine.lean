import LiveStyle.Quantity.Arithmetic
import LiveStyle.Quantity.Basic

/-! # Combining two quantities

Both operands are restated in base units first.  A unitless operand adapts to the
unit of the other; two dimensions never combine, whatever the symbol.  What a
quotient that is not finite becomes is settled by the division policy.
-/
namespace LiveStyle

/-- What becomes of a quotient that is infinite or not a number. -/
inductive DivisionPolicy where
  /-- The float result stands. -/
  | ieee
  /-- The operator faults. -/
  | zero
  deriving DecidableEq, Repr

/-- Why two quantities have no combination. -/
inductive Fault where
  | unitMismatch (left right : MeasureUnit)
  | unsupportedOperator (symbol : String)
  | nonFiniteQuotient
  deriving DecidableEq, Repr

namespace DivisionPolicy

instance : Inhabited DivisionPolicy := ⟨ieee⟩

def name : DivisionPolicy → String
  | ieee => "ieee"
  | zero => "zero"

def ofName? : String → Option DivisionPolicy
  | "ieee" => some ieee
  | "zero" => some zero
  | _ => none

def refuses (policy : DivisionPolicy) (op : ArithOp) (result : Float) : Bool :=
  policy = zero && op = .divide && !result.isFinite

@[simp] theorem ofName?_name (policy : DivisionPolicy) : ofName? policy.name = some policy := by
  cases policy <;> rfl

@[simp] theorem ieee_refuses (op : ArithOp) (x : Float) : ieee.refuses op x = false := rfl

end DivisionPolicy

namespace Fault

def message : Fault → String
  | unitMismatch left right =>
    "cannot combine `" ++ left.symbol ++ "` with `" ++ right.symbol ++ "`"
  | unsupportedOperator symbol => "unsupported operator `" ++ symbol ++ "`"
  | nonFiniteQuotient => "division produced a non-finite quotient"

end Fault

namespace Quantity

/-- The unit of a combination: the one that is present, provided two present ones agree. -/
def jointUnit : Option MeasureUnit → Option MeasureUnit → Except Fault (Option MeasureUnit)
  | some u, some v => if u = v then .ok (some u) else .error (.unitMismatch u v)
  | some u, none => .ok (some u)
  | none, v => .ok v

/-- Combine operands that are in base units; a unit fault comes before an unsupported symbol,
and both before the number is looked at. -/
def combineInBase (policy : DivisionPolicy) (symbol : String) (left right : Quantity) :
    Except Fault Quantity :=
  match jointUnit left.unit right.unit with
  | .error fault => .error fault
  | .ok unit =>
    match ArithOp.ofSymbol? symbol with
    | none => .error (.unsupportedOperator symbol)
    | some op =>
      let number := op.apply left.number right.number
      if policy.refuses op number then .error .nonFiniteQuotient else .ok ⟨number, unit⟩

def combine (policy : DivisionPolicy) (symbol : String) (left right : Quantity) :
    Except Fault Quantity :=
  combineInBase policy symbol left.toBase right.toBase

end Quantity
end LiveStyle
