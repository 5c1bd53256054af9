import LiveStyle.Proofs.Term.Series
import LiveStyle.Tree.Build

/-! # Live reads

The environment calls of a term that name a known variable are its live reads, from left to right
through the operands of every calculation that builds.  To supply numbers to a term is to put them
in the places of its live reads, in this order.
-/
namespace LiveStyle.Term

/-- Whether an environment call with these arguments names the scroll progress. -/
abbrev ReadsScroll (arguments : List (List Term)) : Prop :=
  Node.environmentName arguments = some Variable.windowScrollY.name

mutual

def liveReads : Term → Nat
  | call name arguments =>
    match Builtin.ofName? name with
    | some .calculation => liveReadsArguments arguments
    | some .environment => if ReadsScroll arguments then 1 else 0
    | none => 0
  | _ => 0

/-- A calculation of anything but one alternating list does not build. -/
def liveReadsArguments : List (List Term) → Nat
  | [terms] => if alternates terms then liveReadsTerms terms else 0
  | _ => 0

def liveReadsTerms : List Term → Nat
  | [] => 0
  | term :: terms => liveReads term + liveReadsTerms terms

end

mutual

/-- The term with numbers for its live reads, `values first` for the leftmost, `values (first + 1)`
for the next one and so on. -/
def supply (values : Nat → Quantity) (first : Nat) : Term → Term
  | call name arguments =>
    match Builtin.ofName? name with
    | some .calculation => call name (supplyArguments values first arguments)
    | some .environment =>
      if ReadsScroll arguments then number (values first) else call name arguments
    | none => call name arguments
  | term => term

def supplyArguments (values : Nat → Quantity) (first : Nat) : List (List Term) → List (List Term)
  | [terms] => if alternates terms then [supplyTerms values first terms] else [terms]
  | arguments => arguments

def supplyTerms (values : Nat → Quantity) (first : Nat) : List Term → List Term
  | [] => []
  | term :: terms => supply values first term :: supplyTerms values (first + liveReads term) terms

end

variable (values : Nat → Quantity) (first : Nat)

theorem liveReadsTerms_cons_operator (symbol : String) (operand : Term) (rest : List Term) :
    liveReadsTerms (operator symbol :: operand :: rest) =
      operand.liveReads + liveReadsTerms rest := by
  simp only [liveReadsTerms, liveReads, Nat.zero_add]

theorem supplyTerms_cons_operator (symbol : String) (operand : Term) (rest : List Term) :
    supplyTerms values first (operator symbol :: operand :: rest) =
      operator symbol :: operand.supply values first ::
        supplyTerms values (first + operand.liveReads) rest := by
  simp only [supplyTerms, supply, liveReads, Nat.add_zero]

/-- Only environment calls are replaced, and by numbers, so that operands stay operands. -/
theorem symbol?_supply (term : Term) : (term.supply values first).symbol? = term.symbol? := by
  cases term with
  | call name arguments =>
    rw [supply]
    rcases Builtin.ofName? name with _ | _ | _
    · rfl
    · rfl
    · dsimp only
      split <;> rfl
  | _ => rfl

theorem alternates_supplyTerms (terms : List Term) :
    alternates (supplyTerms values first terms) = alternates terms := by
  induction terms using alternates.induct generalizing first with
  | case1 => rfl
  | case2 term => rw [supplyTerms, supplyTerms, alternates, alternates, symbol?_supply]
  | case3 term next terms ih =>
    rw [supplyTerms, supplyTerms, alternates, alternates, symbol?_supply, symbol?_supply, ih]

end LiveStyle.Term
