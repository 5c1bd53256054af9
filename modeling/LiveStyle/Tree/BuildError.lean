/-! # Why a call has no tree

The argument of `calc` must be one list of operands with an operator between any
two neighbours.  Each way of missing that form has its cause.
-/
namespace LiveStyle

inductive BuildError where
  | wrongArgumentCount (found : Nat)
  | empty
  | missingLeftOperand (operator : String)
  | expectedOperand (found : String)
  | expectedOperator
  | danglingOperator (operator : String)
  deriving DecidableEq, Repr

namespace BuildError

def message : BuildError → String
  | wrongArgumentCount found => "calc() takes exactly one argument, found " ++ Nat.repr found
  | empty => "calc() argument has no terms"
  | missingLeftOperand operator => "operator `" ++ operator ++ "` has no left operand"
  | expectedOperand found => "expected an operand, found operator `" ++ found ++ "`"
  | expectedOperator => "expected an operator between operands"
  | danglingOperator operator => "operator `" ++ operator ++ "` has no right operand"

end BuildError
end LiveStyle
