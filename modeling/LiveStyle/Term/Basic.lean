import LiveStyle.Quantity.Basic

/-! # Terms

An expression is a sequence of terms as written: numbers, identifiers, operator
symbols and calls, whose arguments are expressions again.  Nothing is grouped yet,
and operator symbols are kept verbatim whether or not they mean anything.
-/
namespace LiveStyle

inductive Term where
  | number (quantity : Quantity)
  | identifier (name : String)
  | operator (symbol : String)
  | call (name : String) (arguments : List (List Term))

abbrev Expression := List Term

namespace Term

instance : Inhabited Term := ⟨number Quantity.zero⟩

def kind : Term → String
  | number _ => "number"
  | identifier _ => "identifier"
  | operator _ => "operator"
  | call _ _ => "function"

mutual

/-- Equal content: numbers compare as quantities do, texts exactly. -/
def same : Term → Term → Bool
  | number p, number q => p.same q
  | identifier a, identifier b => a = b
  | operator a, operator b => a = b
  | call f xs, call g ys => f = g && sameArguments xs ys
  | _, _ => false

def sameTerms : List Term → List Term → Bool
  | [], [] => true
  | x :: xs, y :: ys => same x y && sameTerms xs ys
  | _, _ => false

def sameArguments : List (List Term) → List (List Term) → Bool
  | [], [] => true
  | x :: xs, y :: ys => sameTerms x y && sameArguments xs ys
  | _, _ => false

end

end Term

inductive Builtin where
  | calculation
  | environment
  deriving DecidableEq, Repr

namespace Builtin

def name : Builtin → String
  | calculation => "calc"
  | environment => "env"

def ofName? : String → Option Builtin
  | "calc" => some calculation
  | "env" => some environment
  | _ => none

@[simp] theorem ofName?_name (f : Builtin) : ofName? f.name = some f := by
  cases f <;> rfl

end Builtin
end LiveStyle
