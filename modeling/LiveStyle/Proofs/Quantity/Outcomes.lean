import Mathlib.Control.Monad.Basic
import Mathlib.Tactic.ByContra
import LiveStyle.Quantity.Combine

/-! # What becomes of two operands

Units that clash are a fault before anything else is looked at, then a symbol that is no operator,
then a quotient that the policy refuses; what is left has a result.  The first two faults follow
from the units and the symbol alone, and stay when the operands change places.
-/
namespace LiveStyle

theorem ArithOp.ofSymbol?_eq_none_iff {symbol : String} :
    ofSymbol? symbol = none ↔ ∀ op : ArithOp, symbol ≠ op.symbol := by
  simp [Option.eq_none_iff_forall_ne_some, ofSymbol?_eq_some_iff]

theorem ArithOp.symbol_inj {op op' : ArithOp} (h : op.symbol = op'.symbol) : op = op' :=
  Option.some.inj ((ofSymbol?_symbol op).symm.trans (ofSymbol?_eq_some_iff.mpr h))

theorem ArithOp.exists_symbol_iff {symbol : String} {P : ArithOp → Prop} :
    (∃ op : ArithOp, symbol = op.symbol ∧ P op) ↔
      symbol = "+" ∧ P .add ∨ symbol = "-" ∧ P .subtract ∨ symbol = "*" ∧ P .multiply ∨
        symbol = "/" ∧ P .divide := by
  constructor
  · rintro ⟨op, rfl, h⟩
    cases op <;> simp [ArithOp.symbol, h]
  · rintro (⟨rfl, h⟩ | ⟨rfl, h⟩ | ⟨rfl, h⟩ | ⟨rfl, h⟩) <;> exact ⟨_, rfl, h⟩

theorem ArithOp.forall_symbol_ne_iff {symbol : String} :
    (∀ op : ArithOp, symbol ≠ op.symbol) ↔ symbol ∉ ["+", "-", "*", "/"] := by
  constructor
  · intro h hmem
    simp only [List.mem_cons, List.not_mem_nil, or_false] at hmem
    rcases hmem with rfl | rfl | rfl | rfl
    exacts [h .add rfl, h .subtract rfl, h .multiply rfl, h .divide rfl]
  · rintro h op rfl
    cases op <;> exact h (by decide)

def Fault.exchanged : Fault → Fault
  | unitMismatch left right => unitMismatch right left
  | fault => fault

namespace Quantity

/-- Both operands have units, of two dimensions. -/
def Clash (left right : Quantity) : Prop :=
  ∃ u v, left.unit = some u ∧ right.unit = some v ∧ u.dimension ≠ v.dimension

/-- There is a quotient, and the policy does not accept it. -/
def Refused (policy : DivisionPolicy) (symbol : String) (left right : Quantity) : Prop :=
  policy = .zero ∧ symbol = "/" ∧ (left.toBase.number / right.toBase.number).isFinite = false

/-- The base unit of whichever operand has a unit. -/
def commonUnit (left right : Quantity) : Option MeasureUnit :=
  (left.unit.or right.unit).map MeasureUnit.base

theorem clash_comm {left right : Quantity} : left.Clash right ↔ right.Clash left := by
  constructor <;> exact fun ⟨u, v, hu, hv, h⟩ => ⟨v, u, hv, hu, h.symm⟩

theorem clash_congr {left left' right right' : Quantity} (hl : left.unit = left'.unit)
    (hr : right.unit = right'.unit) : left.Clash right ↔ left'.Clash right' := by
  rw [Clash, Clash, hl, hr]

theorem base_eq_of_not_clash {left right : Quantity} (h : ¬ left.Clash right) {u v : MeasureUnit}
    (hu : left.unit = some u) (hv : right.unit = some v) : u.base = v.base := by
  rw [MeasureUnit.base_eq_base_iff]
  by_contra hdimension
  exact h ⟨u, v, hu, hv, hdimension⟩

theorem commonUnit_comm {left right : Quantity} (h : ¬ left.Clash right) :
    left.commonUnit right = right.commonUnit left := by
  unfold commonUnit
  cases hl : left.unit with
  | none => simp
  | some u =>
    cases hr : right.unit with
    | none => simp
    | some v => simpa using base_eq_of_not_clash h hl hr

theorem eq_commonUnit_iff {left right : Quantity} (h : ¬ left.Clash right)
    {unit : Option MeasureUnit} :
    unit = left.commonUnit right ↔
      (∀ u, left.unit = some u → unit = some u.base) ∧
        (∀ v, right.unit = some v → unit = some v.base) ∧
          (left.unit = none → right.unit = none → unit = none) := by
  unfold commonUnit
  cases hl : left.unit with
  | none => cases right.unit <;> simp
  | some u =>
    cases hr : right.unit with
    | none => simp
    | some v => simp [base_eq_of_not_clash h hl hr]

theorem jointUnit_of_not_clash {left right : Quantity} (h : ¬ left.Clash right) :
    jointUnit left.toBase.unit right.toBase.unit = .ok (left.commonUnit right) := by
  rw [toBase_unit, toBase_unit, commonUnit]
  cases hl : left.unit with
  | none => rfl
  | some u =>
    cases hr : right.unit with
    | none => rfl
    | some v => simp [jointUnit, base_eq_of_not_clash h hl hr]

section Outcomes
variable (policy : DivisionPolicy) {symbol : String} {left right : Quantity}

theorem combine_of_clash {u v : MeasureUnit} (hu : left.unit = some u) (hv : right.unit = some v)
    (h : u.dimension ≠ v.dimension) :
    combine policy symbol left right = .error (.unitMismatch u.base v.base) := by
  have hbase : u.base ≠ v.base := (MeasureUnit.base_eq_base_iff u v).not.mpr h
  simp [combine, combineInBase, toBase_unit, hu, hv, jointUnit, hbase]

theorem combine_of_unsupported (h : ¬ left.Clash right)
    (hsymbol : ∀ op : ArithOp, symbol ≠ op.symbol) :
    combine policy symbol left right = .error (.unsupportedOperator symbol) := by
  rw [combine, combineInBase, jointUnit_of_not_clash h, ArithOp.ofSymbol?_eq_none_iff.mpr hsymbol]

variable {policy}

/-- The check of the result looks at quotients only. -/
theorem refuses_eq_true_iff (op : ArithOp) :
    policy.refuses op (op.apply left.toBase.number right.toBase.number) = true ↔
      Refused policy op.symbol left right := by
  constructor
  · intro h
    simp only [DivisionPolicy.refuses, Bool.and_eq_true, decide_eq_true_eq, Bool.not_eq_true'] at h
    obtain ⟨⟨hpolicy, rfl⟩, hfinite⟩ := h
    exact ⟨hpolicy, rfl, hfinite⟩
  · rintro ⟨rfl, hsymbol, hfinite⟩
    obtain rfl : op = .divide := ArithOp.symbol_inj hsymbol
    simp [DivisionPolicy.refuses, ArithOp.apply, hfinite]

theorem combine_symbol (h : ¬ left.Clash right) (op : ArithOp) :
    combine policy op.symbol left right =
      if policy.refuses op (op.apply left.toBase.number right.toBase.number) then
        .error .nonFiniteQuotient
      else .ok ⟨op.apply left.toBase.number right.toBase.number, left.commonUnit right⟩ := by
  rw [combine, combineInBase, jointUnit_of_not_clash h, ArithOp.ofSymbol?_symbol]

theorem combine_of_refused (h : ¬ left.Clash right) (hrefused : Refused policy symbol left right) :
    combine policy symbol left right = .error .nonFiniteQuotient := by
  obtain rfl : symbol = ArithOp.divide.symbol := hrefused.2.1
  rw [combine_symbol h, if_pos ((refuses_eq_true_iff _).mpr hrefused)]

theorem combine_of_not_refused (h : ¬ left.Clash right) {op : ArithOp}
    (hrefused : ¬ Refused policy op.symbol left right) :
    combine policy op.symbol left right =
      .ok ⟨op.apply left.toBase.number right.toBase.number, left.commonUnit right⟩ := by
  rw [combine_symbol h, if_neg ((refuses_eq_true_iff op).not.mpr hrefused)]

/-- The situations that two operands can be in, with what becomes of them. -/
inductive Outcome (policy : DivisionPolicy) (symbol : String) (left right : Quantity) :
    Except Fault Quantity → Prop
  | clash {u v : MeasureUnit} : left.unit = some u → right.unit = some v →
      u.dimension ≠ v.dimension →
      Outcome policy symbol left right (.error (.unitMismatch u.base v.base))
  | unsupported : ¬ left.Clash right → (∀ op : ArithOp, symbol ≠ op.symbol) →
      Outcome policy symbol left right (.error (.unsupportedOperator symbol))
  | refused : ¬ left.Clash right → Refused policy symbol left right →
      Outcome policy symbol left right (.error .nonFiniteQuotient)
  | result (op : ArithOp) : ¬ left.Clash right → ¬ Refused policy symbol left right →
      symbol = op.symbol →
      Outcome policy symbol left right
        (.ok ⟨op.apply left.toBase.number right.toBase.number, left.commonUnit right⟩)

theorem outcome_combine (policy : DivisionPolicy) (symbol : String) (left right : Quantity) :
    Outcome policy symbol left right (combine policy symbol left right) := by
  by_cases h : left.Clash right
  · obtain ⟨u, v, hu, hv, hdimension⟩ := h
    rw [combine_of_clash policy hu hv hdimension]
    exact .clash hu hv hdimension
  · cases hop : ArithOp.ofSymbol? symbol with
    | none =>
      have hsymbol := ArithOp.ofSymbol?_eq_none_iff.mp hop
      rw [combine_of_unsupported policy h hsymbol]
      exact .unsupported h hsymbol
    | some op =>
      obtain rfl := ArithOp.ofSymbol?_eq_some_iff.mp hop
      by_cases hrefused : Refused policy op.symbol left right
      · rw [combine_of_refused h hrefused]
        exact .refused h hrefused
      · rw [combine_of_not_refused h hrefused]
        exact .result op h hrefused rfl

end Outcomes

section Exact
variable {policy : DivisionPolicy} {symbol : String} {left right : Quantity}

theorem combine_eq_unitMismatch_iff {u v : MeasureUnit} :
    combine policy symbol left right = .error (.unitMismatch u v) ↔
      ∃ a b, left.unit = some a ∧ right.unit = some b ∧ a.dimension ≠ b.dimension ∧
        u = a.base ∧ v = b.base := by
  constructor
  · intro h
    cases h ▸ outcome_combine policy symbol left right with
    | clash ha hb hdimension => exact ⟨_, _, ha, hb, hdimension, rfl, rfl⟩
  · rintro ⟨a, b, ha, hb, hdimension, rfl, rfl⟩
    exact combine_of_clash policy ha hb hdimension

theorem combine_eq_unsupportedOperator_iff {found : String} :
    combine policy symbol left right = .error (.unsupportedOperator found) ↔
      ¬ left.Clash right ∧ (∀ op : ArithOp, symbol ≠ op.symbol) ∧ found = symbol := by
  constructor
  · intro h
    cases h ▸ outcome_combine policy symbol left right with
    | unsupported hclash hsymbol => exact ⟨hclash, hsymbol, rfl⟩
  · rintro ⟨hclash, hsymbol, rfl⟩
    exact combine_of_unsupported policy hclash hsymbol

theorem combine_eq_nonFiniteQuotient_iff :
    combine policy symbol left right = .error .nonFiniteQuotient ↔
      ¬ left.Clash right ∧ Refused policy symbol left right := by
  constructor
  · intro h
    cases h ▸ outcome_combine policy symbol left right with
    | refused hclash hrefused => exact ⟨hclash, hrefused⟩
  · rintro ⟨hclash, hrefused⟩
    exact combine_of_refused hclash hrefused

theorem combine_eq_ok_iff {result : Quantity} :
    combine policy symbol left right = .ok result ↔
      ¬ left.Clash right ∧ ¬ Refused policy symbol left right ∧
        (∃ op : ArithOp, symbol = op.symbol ∧
          result.number = op.apply left.toBase.number right.toBase.number) ∧
        result.unit = left.commonUnit right := by
  constructor
  · intro h
    cases h ▸ outcome_combine policy symbol left right with
    | result op hclash hrefused hsymbol => exact ⟨hclash, hrefused, ⟨op, hsymbol, rfl⟩, rfl⟩
  · rintro ⟨hclash, hrefused, ⟨op, rfl, hnumber⟩, hunit⟩
    rw [combine_of_not_refused hclash hrefused, ← hnumber, ← hunit]

/-- Faults of units and symbols follow from the units and the symbol. -/
theorem combine_eq_error_congr {policy' : DivisionPolicy} {left' right' : Quantity}
    (hl : left.unit = left'.unit) (hr : right.unit = right'.unit) {fault : Fault}
    (hfault : fault ≠ .nonFiniteQuotient) :
    combine policy symbol left right = .error fault ↔
      combine policy' symbol left' right' = .error fault := by
  cases fault with
  | unitMismatch u v => rw [combine_eq_unitMismatch_iff, combine_eq_unitMismatch_iff, hl, hr]
  | unsupportedOperator found =>
    rw [combine_eq_unsupportedOperator_iff, combine_eq_unsupportedOperator_iff,
      clash_congr hl hr]
  | nonFiniteQuotient => exact absurd rfl hfault

theorem combine_eq_error_comm {fault : Fault} (hfault : fault ≠ .nonFiniteQuotient) :
    combine policy symbol left right = .error fault ↔
      combine policy symbol right left = .error fault.exchanged := by
  cases fault with
  | unitMismatch u v =>
    rw [Fault.exchanged, combine_eq_unitMismatch_iff, combine_eq_unitMismatch_iff]
    constructor <;> exact fun ⟨a, b, ha, hb, h, hu, hv⟩ => ⟨b, a, hb, ha, h.symm, hv, hu⟩
  | unsupportedOperator found =>
    have hfault : (Fault.unsupportedOperator found).exchanged = .unsupportedOperator found := rfl
    rw [hfault, combine_eq_unsupportedOperator_iff, combine_eq_unsupportedOperator_iff, clash_comm]
  | nonFiniteQuotient => exact absurd rfl hfault

theorem unit_eq_of_combine_comm {result result' : Quantity}
    (h : combine policy symbol left right = .ok result)
    (h' : combine policy symbol right left = .ok result') : result.unit = result'.unit := by
  obtain ⟨hclash, -, -, hunit⟩ := combine_eq_ok_iff.mp h
  obtain ⟨-, -, -, hunit'⟩ := combine_eq_ok_iff.mp h'
  rw [hunit, hunit', commonUnit_comm hclash]

end Exact
end Quantity

/-- What becomes of two operands is settled in a fixed order: by their dimensions, by the symbol, by
the policy where the quotient is not finite; else the result is that of the operator on the numbers
restated in radians or metres, in the base unit that is there.  So the numbers have no part in
faults of units and symbols, and when the operands change places these stay and results keep their
unit. -/
theorem combination_outcomes :
    (∀ (policy : DivisionPolicy) (symbol : String) (left right : Quantity),
      let combined := Quantity.combine policy symbol left right
      let restated := fun q : Quantity =>
        match q.unit with
        | some .degree => q.number * 0.017453292519943295
        | some .centimetre => q.number / 100
        | some .millimetre => q.number / 1000
        | some .radian | some .metre | none => q.number
      let x := restated left
      let y := restated right
      let clash := ∃ u v, left.unit = some u ∧ right.unit = some v ∧ u.dimension ≠ v.dimension
      let refused := policy = .zero ∧ symbol = "/" ∧ (x / y).isFinite = false
      (∀ a b, combined = .error (.unitMismatch a b) ↔
        ∃ u v, left.unit = some u ∧ right.unit = some v ∧ u.dimension ≠ v.dimension ∧
          a = u.base ∧ b = v.base) ∧
      (∀ found, combined = .error (.unsupportedOperator found) ↔
        ¬ clash ∧ symbol ∉ ["+", "-", "*", "/"] ∧ found = symbol) ∧
      (combined = .error .nonFiniteQuotient ↔ ¬ clash ∧ refused) ∧
      ∀ result, combined = .ok result ↔ ¬ clash ∧ ¬ refused ∧
        (symbol = "+" ∧ result.number = x + y ∨ symbol = "-" ∧ result.number = x - y ∨
          symbol = "*" ∧ result.number = x * y ∨ symbol = "/" ∧ result.number = x / y) ∧
        (∀ u, left.unit = some u → result.unit = some u.base) ∧
        (∀ v, right.unit = some v → result.unit = some v.base) ∧
        (left.unit = none → right.unit = none → result.unit = none)) ∧
    (∀ (policy policy' : DivisionPolicy) (symbol : String) (left left' right right' : Quantity),
      left.unit = left'.unit → right.unit = right'.unit → ∀ fault ≠ Fault.nonFiniteQuotient,
        (Quantity.combine policy symbol left right = .error fault ↔
          Quantity.combine policy' symbol left' right' = .error fault)) ∧
    (∀ (policy : DivisionPolicy) (symbol : String) (left right : Quantity),
      ∀ fault ≠ Fault.nonFiniteQuotient,
        (Quantity.combine policy symbol left right = .error fault ↔
          Quantity.combine policy symbol right left = .error fault.exchanged)) ∧
    ∀ (policy : DivisionPolicy) (symbol : String) (left right result result' : Quantity),
      Quantity.combine policy symbol left right = .ok result →
        Quantity.combine policy symbol right left = .ok result' → result.unit = result'.unit := by
  refine ⟨?_, ?_, ?_, ?_⟩
  · intro policy symbol left right combined restated x y clash refused
    have hx : left.toBase.number = x := left.toBase_number
    have hy : right.toBase.number = y := right.toBase_number
    clear_value x y
    subst hx hy
    refine ⟨?_, ?_, ?_, ?_⟩
    · exact fun a b => Quantity.combine_eq_unitMismatch_iff
    · intro found
      rw [← ArithOp.forall_symbol_ne_iff]
      exact Quantity.combine_eq_unsupportedOperator_iff
    · exact Quantity.combine_eq_nonFiniteQuotient_iff
    · intro result
      refine Quantity.combine_eq_ok_iff.trans (and_congr_right fun hclash => and_congr_right' ?_)
      exact and_congr ArithOp.exists_symbol_iff (Quantity.eq_commonUnit_iff hclash)
  · exact fun policy policy' symbol left left' right right' hl hr fault hfault =>
      Quantity.combine_eq_error_congr hl hr hfault
  · exact fun policy symbol left right fault hfault => Quantity.combine_eq_error_comm hfault
  · exact fun policy symbol left right result result' => Quantity.unit_eq_of_combine_comm

/-- An angle over a length clashes also where both are zero, and also the other way round; a length
over zero is refused.  Other operands have results in metres or radians: 50cm and 1m make 1.5m and
are half a metre apart either way, 2m less 500mm are 1.5m, and twice 90deg is π. -/
theorem combination_outcomes_lengths :
    let half : Quantity := ⟨50, some .centimetre⟩
    let whole : Quantity := ⟨1, some .metre⟩
    let below : Quantity := ⟨-0.5, some .metre⟩
    let above : Quantity := ⟨0.5, some .metre⟩
    Quantity.combine .zero "/" ⟨0, some .degree⟩ ⟨0, some .centimetre⟩ =
        .error (.unitMismatch .radian .metre) ∧
      Quantity.combine .ieee "/" half ⟨90, some .degree⟩ =
        .error (.unitMismatch .metre .radian) ∧
      Quantity.combine .zero "/" whole .zero = .error .nonFiniteQuotient ∧
      Quantity.combine .zero "+" half whole = .ok ⟨1.5, some .metre⟩ ∧
      Quantity.combine .zero "-" half whole = .ok below ∧
      Quantity.combine .zero "-" whole half = .ok above ∧ below.unit = above.unit ∧
      Quantity.combine .ieee "-" ⟨2, some .metre⟩ ⟨500, some .millimetre⟩ =
        .ok ⟨1.5, some .metre⟩ ∧
      Quantity.combine .ieee "*" (.unitless 2) ⟨90, some .degree⟩ =
        .ok ⟨3.141592653589793, some .radian⟩ := by
  intro half whole below above
  obtain ⟨houtcomes, hstatic, hcomm, hunit⟩ := combination_outcomes
  have hclash := ((houtcomes .ieee "/" ⟨90, some .degree⟩ half).1 .radian .metre).mpr
    ⟨.degree, .centimetre, rfl, rfl, by decide, rfl, rfl⟩
  have hbelow : Quantity.combine .zero "-" half whole = .ok below := by decide +kernel
  have habove : Quantity.combine .zero "-" whole half = .ok above := by decide +kernel
  refine ⟨?_, ?_, ?_, ?_, hbelow, habove, hunit .zero "-" half whole below above hbelow habove, ?_,
    ?_⟩
  · exact (hstatic .ieee .zero "/" ⟨90, some .degree⟩ ⟨0, some .degree⟩ half
      ⟨0, some .centimetre⟩ rfl rfl (.unitMismatch .radian .metre) nofun).mp hclash
  · exact (hcomm .ieee "/" ⟨90, some .degree⟩ half (.unitMismatch .radian .metre) nofun).mp hclash
  · refine (houtcomes .zero "/" whole .zero).2.2.1.mpr ⟨?_, rfl, rfl, by decide +kernel⟩
    rintro ⟨_, _, -, ⟨⟩, -⟩
  · refine ((houtcomes .zero "+" half whole).2.2.2 ⟨1.5, some .metre⟩).mpr
      ⟨?_, fun h => absurd h.2.1 (by decide), .inl ⟨rfl, by decide +kernel⟩, ?_, ?_, nofun⟩
    · rintro ⟨_, _, ⟨⟩, ⟨⟩, hdimension⟩
      exact hdimension rfl
    · rintro _ ⟨⟩
      rfl
    · rintro _ ⟨⟩
      rfl
  · decide +kernel
  · decide +kernel

end LiveStyle
