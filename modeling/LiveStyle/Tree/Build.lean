import LiveStyle.Diagnostics.Event
import LiveStyle.Scroll.Source
import LiveStyle.Tree.Basic

/-! # Building trees from terms

The argument of `calc` is a flat list of terms, folded over a stack in two passes.
The tight pass goes through the terms: whenever `*` or `/` lies on top of the stack
it is taken off with its left operand and joined with the next term.  The loose pass
folds what is left from left to right, so that every other symbol, known or not,
binds like `+`.  Terms that mean nothing as operands become zero and are logged.
-/
namespace LiveStyle

/-- An entry of the stack, whose head is its top. -/
inductive Slot where
  | operand (node : Node)
  | operator (symbol : String)
  deriving DecidableEq

namespace Slot

/-- What the top of a stack makes of the next entry. -/
inductive Gap where
  | free (stack : List Slot)
  /-- A tight operator, off the stack with its left operand, needs its right one. -/
  | waiting (left : Node) (symbol : String) (below : List Slot)

/-- A tight operator on top must have an operand below it. -/
def gap : List Slot → Except BuildError Gap
  | operator symbol :: below =>
    if symbolBindsTight symbol then
      match below with
      | [] => .error (.missingLeftOperand symbol)
      | operator found :: _ => .error (.expectedOperand found)
      | operand left :: below => .ok (.waiting left symbol below)
    else .ok (.free (operator symbol :: below))
  | stack => .ok (.free stack)

/-- Put the next entry in its place; a waiting operator takes only an operand. -/
def Gap.fill (policy : DivisionPolicy) : Gap → Slot → Except BuildError (List Slot)
  | .free stack, slot => .ok (slot :: stack)
  | .waiting left symbol below, operand right => .ok (operand (.join policy symbol left right) :: below)
  | .waiting .., operator found => .error (.expectedOperand found)

def chain (policy : DivisionPolicy) (tree : Node) : List Slot → Except BuildError Node
  | [] => .ok tree
  | operand _ :: _ => .error .expectedOperator
  | [operator symbol] => .error (.danglingOperator symbol)
  | operator _ :: operator found :: _ => .error (.expectedOperand found)
  | operator symbol :: operand right :: rest => chain policy (.join policy symbol tree right) rest

def foldLoose (policy : DivisionPolicy) : List Slot → Except BuildError Node
  | [] => .error .empty
  | operator found :: _ => .error (.expectedOperand found)
  | operand first :: rest => chain policy first rest

end Slot

namespace Node

/-- Close the build of a call: a calculation without a tree is logged with its reason. -/
def ofResult (call : Term) : Except BuildError Node → Log → Node × Log
  | .ok inner, log => (enclose inner, log)
  | .error error, log => (fail error, log.push (.noTree error call))

def namedVariable (identifier : Option String) : Option Variable := identifier.bind Variable.ofName?

/-- Only the first term of the first argument counts, and only if it is an identifier. -/
def environmentName : List (List Term) → Option String
  | (.identifier name :: _) :: _ => some name
  | _ => none

def ofEnvironment (arguments : List (List Term)) (log : Log) : Node × Log :=
  let identifier := environmentName arguments
  (environment identifier,
    if (namedVariable identifier).isSome then log else log.push (.unknownVariable identifier))

mutual

/-- The node of a term: numbers are literals, calls of the two built-in functions their nodes,
and everything else zero. -/
def ofTerm (policy : DivisionPolicy) : Term → Log → Node × Log
  | .number quantity, log => (literal quantity, log)
  | .identifier name, log => (zero, log.push (.notEvaluatable (.identifier name)))
  | .operator symbol, log => (zero, log.push (.notEvaluatable (.operator symbol)))
  | .call name arguments, log =>
    match Builtin.ofName? name with
    | some .calculation => ofCalculation policy name arguments log
    | some .environment => ofEnvironment arguments log
    | none => (zero, log.push (.unknownFunction name))

/-- The calculation of a call with these arguments, whatever the name it is written under. -/
def ofCalculation (policy : DivisionPolicy) (name : String) : List (List Term) → Log → Node × Log
  | [terms], log =>
    let call := Term.call name [terms]
    let (stack, log) := foldTight policy terms [] (log.push (.buildStarted call))
    ofResult call (stack.bind fun stack => Slot.foldLoose policy stack.reverse) log
  | arguments, log =>
    let call := Term.call name arguments
    ofResult call (.error (.wrongArgumentCount arguments.length)) (log.push (.buildStarted call))

/-- The tight pass, from left to right; a term is built only when the stack is ready for it. -/
def foldTight (policy : DivisionPolicy) :
    List Term → List Slot → Log → Except BuildError (List Slot) × Log
  | [], stack, log => (.ok stack, log)
  | term :: terms, stack, log =>
    match Slot.gap stack with
    | .error error => (.error error, log)
    | .ok gap =>
      let (slot, log) : Slot × Log :=
        match term with
        | .operator symbol => (.operator symbol, log)
        | _ => let (node, log) := ofTerm policy term log; (.operand node, log)
      match gap.fill policy slot with
      | .error error => (.error error, log)
      | .ok stack => foldTight policy terms stack log

end

end Node
end LiveStyle
