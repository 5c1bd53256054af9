/-! # Arithmetic operators

Four symbols name an operation on floats; `*` and `/` bind tighter than `+` and
`-`.  Any other symbol may stand between operands, but it binds like `+` and
computes nothing.
-/
namespace LiveStyle

inductive ArithOp where
  | add
  | subtract
  | multiply
  | divide
  deriving DecidableEq, Repr

namespace ArithOp

def symbol : ArithOp → String
  | add => "+"
  | subtract => "-"
  | multiply => "*"
  | divide => "/"

def ofSymbol? : String → Option ArithOp
  | "+" => some add
  | "-" => some subtract
  | "*" => some multiply
  | "/" => some divide
  | _ => none

def bindsTight : ArithOp → Bool
  | multiply | divide => true
  | add | subtract => false

def apply (op : ArithOp) (left right : Float) : Float :=
  match op with
  | add => left + right
  | subtract => left - right
  | multiply => left * right
  | divide => left / right

@[simp] theorem ofSymbol?_symbol (op : ArithOp) : ofSymbol? op.symbol = some op := by
  cases op <;> rfl

theorem ofSymbol?_eq_some_iff {symbol : String} {op : ArithOp} :
    ofSymbol? symbol = some op ↔ symbol = op.symbol := by
  constructor
  · intro h
    unfold ofSymbol? at h
    split at h <;> cases h <;> rfl
  · rintro rfl
    exact ofSymbol?_symbol op

end ArithOp

def symbolBindsTight (symbol : String) : Bool :=
  (ArithOp.ofSymbol? symbol).any ArithOp.bindsTight

theorem symbolBindsTight_eq_true_iff {symbol : String} :
    symbolBindsTight symbol = true ↔ symbol = "*" ∨ symbol = "/" := by
  constructor
  · intro h
    obtain ⟨op, hop, htight⟩ := (Option.any_eq_true _ _).mp h
    obtain rfl := ArithOp.ofSymbol?_eq_some_iff.mp hop
    cases op with
    | multiply => exact .inl rfl
    | divide => exact .inr rfl
    | add | subtract => cases htight
  · rintro (rfl | rfl) <;> rfl

theorem symbolBindsTight_eq_false_iff {symbol : String} :
    symbolBindsTight symbol = false ↔ symbol ≠ "*" ∧ symbol ≠ "/" := by
  rw [← Bool.not_eq_true, symbolBindsTight_eq_true_iff, not_or]

end LiveStyle
