import LiveStyle.Term.Text
import LiveStyle.Proofs.Decimal.Reading
import LiveStyle.Proofs.Text.Spelling

/-! # Words

The text of a term is a word, followed for calls by the arguments in parentheses.  No
separator stands inside a word, so the word can be cut off the text, and its first characters
tell numbers, operators and names apart.
-/
namespace LiveStyle

section Stop
variable {p : Char → Bool} {word word' rest rest' : List Char}

theorem takeWhile_of_stop (hword : ∀ c ∈ word, p c = true)
    (hrest : ∀ c ∈ rest.head?, p c = false) : (word ++ rest).takeWhile p = word := by
  rw [List.takeWhile_append_of_pos hword]
  rcases rest with _ | ⟨c, rest⟩
  · simp
  · rw [List.takeWhile_cons_of_neg (by simp [hrest c rfl]), List.append_nil]

/-- Texts cut at their first characters of another kind agree before and after the cut. -/
theorem append_inj_of_stop (p : Char → Bool) (hword : ∀ c ∈ word, p c = true)
    (hword' : ∀ c ∈ word', p c = true)
    (hrest : ∀ c ∈ rest.head?, p c = false) (hrest' : ∀ c ∈ rest'.head?, p c = false)
    (h : word ++ rest = word' ++ rest') : word = word' ∧ rest = rest' := by
  have hcut : word = word' := by
    rw [← takeWhile_of_stop hword hrest, h, takeWhile_of_stop hword' hrest']
  subst hcut
  exact ⟨rfl, List.append_cancel_left h⟩

end Stop

/-! ## Numbers -/

namespace MeasureUnit

theorem symbol_injective {u v : MeasureUnit} (h : u.symbol = v.symbol) : u = v :=
  Option.some.inj (by rw [← ofSymbol?_symbol u, ← ofSymbol?_symbol v, h])

/-- What is written behind a number. -/
def suffix (unit : Option MeasureUnit) : List Char := (unit.elim "" symbol).toList

theorem suffix_injective {unit unit' : Option MeasureUnit} (h : suffix unit = suffix unit') :
    unit = unit' := by
  have hsymbol := String.toList_injective h
  rcases unit with _ | u <;> rcases unit' with _ | v
  · rfl
  · cases v <;> exact absurd hsymbol (by decide)
  · cases u <;> exact absurd hsymbol (by decide)
  · exact congrArg some (symbol_injective hsymbol)

end MeasureUnit

namespace Quantity
open MeasureUnit

/-- The characters of numbers without their units. -/
def isNumeric (c : Char) : Bool := c.isDigit || c = '.' || c = '-'

variable {p q : Quantity}

theorem chars_eq (q : Quantity) : q.chars = Decimal.chars q.number ++ suffix q.unit := rfl

theorem isNumeric_of_mem_numeral {numeral : List Char} (h : Decimal.Numeral numeral) :
    ∀ c ∈ numeral, isNumeric c = true := by
  intro c hc
  rcases h.digit_or_point c hc with hdigit | rfl
  · simp [isNumeric, hdigit]
  · decide

theorem isNumeric_of_mem_chars (hq : q.number.isFinite = true) :
    ∀ c ∈ Decimal.chars q.number, isNumeric c = true := by
  obtain ⟨numeral, hnumeral, heq | heq⟩ := Decimal.exists_numeral hq
  · exact heq ▸ isNumeric_of_mem_numeral hnumeral
  · exact heq ▸ List.forall_mem_cons.mpr ⟨by decide, isNumeric_of_mem_numeral hnumeral⟩

theorem suffix_stops (unit : Option MeasureUnit) :
    ∀ c ∈ (suffix unit).head?, isNumeric c = false := by
  rcases unit with _ | u
  · simp [suffix]
  · cases u <;> simp [suffix, symbol, isNumeric]

theorem chars_injective (hp : p.number.isFinite = true) (hq : q.number.isFinite = true)
    (h : p.chars = q.chars) : p = q := by
  obtain ⟨hnumber, hsuffix⟩ := append_inj_of_stop isNumeric (isNumeric_of_mem_chars hp)
    (isNumeric_of_mem_chars hq) (suffix_stops p.unit) (suffix_stops q.unit) h
  have hfloat := Decimal.chars_injective hp hq hnumber
  have hunit := suffix_injective hsuffix
  rcases p with ⟨x, unit⟩
  rcases q with ⟨y, unit'⟩
  cases hfloat
  cases hunit
  rfl

/-- A minus sign never stands alone. -/
theorem exists_digit_mem_chars (hq : q.number.isFinite = true) :
    ∃ c ∈ q.chars, c.isDigit = true := by
  obtain ⟨numeral, ⟨-, c, hc, hdigit⟩, heq⟩ := Decimal.exists_numeral hq
  have hmem := List.mem_of_mem_head? hc
  refine ⟨c, ?_, hdigit⟩
  rw [chars_eq]
  rcases heq with heq | heq <;> simp [heq, hmem]

theorem chars_begin (hq : q.number.isFinite = true) :
    ∃ c ∈ q.chars.head?, c.isDigit = true ∨ c = '-' := by
  obtain ⟨numeral, ⟨-, c, hc, hdigit⟩, heq | heq⟩ := Decimal.exists_numeral hq
  · exact ⟨c, by simp_all [chars_eq], .inl hdigit⟩
  · exact ⟨'-', by simp [chars_eq, heq], .inr rfl⟩

end Quantity

/-! ## Names, operators and numbers -/

def separators : List Char := [' ', ',', '(', ')']

def isSeparator (c : Char) : Bool := c ∈ separators

def operatorChars : List Char := ['+', '-', '*', '/']

theorem not_isSeparator_of {p : Char → Bool} (hp : ∀ c ∈ separators, p c = false) {c : Char}
    (h : p c = true) : isSeparator c = false := by
  refine decide_eq_false fun hmem => ?_
  simp [hp c hmem] at h

theorem exists_operatorChar {symbol : String} (h : symbol ∈ ["+", "-", "*", "/"]) :
    ∃ c ∈ operatorChars, symbol.toList = [c] := by
  simp only [List.mem_cons, List.not_mem_nil, or_false] at h
  rcases h with rfl | rfl | rfl | rfl
  · exact ⟨'+', by decide, rfl⟩
  · exact ⟨'-', by decide, rfl⟩
  · exact ⟨'*', by decide, rfl⟩
  · exact ⟨'/', by decide, rfl⟩

/-- A word that no separator cuts and that begins neither like a number nor like an operator, as
a letter of any alphabet does. -/
structure IsName (name : String) : Prop where
  begins : ∃ c ∈ name.toList.head?, c.isDigit = false ∧ c ∉ operatorChars
  uncut : ∀ c ∈ name.toList, isSeparator c = false

theorem not_isDigit_of_isAlpha {c : Char} (h : c.isAlpha = true) : c.isDigit = false := by
  rw [Text.isAlpha_iff, Text.isUpper_iff, Text.isLower_iff] at h
  simp only [Char.isDigit, Bool.and_eq_false_iff, decide_eq_false_iff_not, ge_iff_le,
    UInt32.le_iff_toNat_le, Char.toNat_val]
  have hnine : '9'.toNat = 57 := rfl
  omega

theorem isName_of_letter {name : String} (letter : Char) (rest : List Char)
    (hname : name.toList = letter :: rest) (hletter : letter.isAlpha = true)
    (hrest : ∀ c ∈ rest, c.isAlphanum = true ∨ c = '-') : IsName name := by
  constructor
  · have halpha : ∀ c ∈ operatorChars, c.isAlpha = false := by simp [operatorChars]
    refine ⟨letter, by simp [hname], not_isDigit_of_isAlpha hletter, fun hmem => ?_⟩
    simp [halpha letter hmem] at hletter
  · rw [hname]
    refine List.forall_mem_cons.mpr
      ⟨not_isSeparator_of (by simp [separators]) hletter, fun c hc => ?_⟩
    rcases hrest c hc with halphanum | rfl
    · exact not_isSeparator_of (by simp [separators]) halphanum
    · decide

namespace IsName
variable {name symbol : String} {q : Quantity}

theorem ne_number (h : IsName name) (hq : q.number.isFinite = true) : name.toList ≠ q.chars := by
  intro heq
  obtain ⟨c, hc, hdigit, hoperator⟩ := h.begins
  obtain ⟨d, hd, hnumber⟩ := q.chars_begin hq
  rw [heq] at hc
  cases Option.mem_unique hc hd
  rcases hnumber with hnumber | rfl
  · simp [hnumber] at hdigit
  · exact hoperator (by decide)

theorem ne_operator (h : IsName name) (hsymbol : symbol ∈ ["+", "-", "*", "/"]) :
    name.toList ≠ symbol.toList := by
  intro heq
  obtain ⟨c, hc, -, hoperator⟩ := h.begins
  obtain ⟨d, hd, hchars⟩ := exists_operatorChar hsymbol
  rw [heq, hchars] at hc
  cases hc
  exact hoperator hd

end IsName

namespace Quantity
open MeasureUnit

variable {q : Quantity} {symbol : String}

theorem not_isSeparator (hq : q.number.isFinite = true) :
    ∀ c ∈ q.chars, isSeparator c = false := by
  have hsuffix : ∀ unit, ∀ c ∈ suffix unit, isSeparator c = false := by
    rintro (_ | u)
    · simp [suffix]
    · cases u <;> simp [suffix, symbol, isSeparator, separators]
  refine List.forall_mem_append.mpr ⟨fun c hc => ?_, hsuffix q.unit⟩
  exact not_isSeparator_of (by simp [separators, isNumeric]) (isNumeric_of_mem_chars hq c hc)

theorem chars_ne_operator (hq : q.number.isFinite = true)
    (hsymbol : symbol ∈ ["+", "-", "*", "/"]) : q.chars ≠ symbol.toList := by
  have hdigits : ∀ c ∈ operatorChars, c.isDigit = false := by simp [operatorChars]
  intro heq
  obtain ⟨c, hc, hdigit⟩ := q.exists_digit_mem_chars hq
  obtain ⟨d, hd, hchars⟩ := exists_operatorChar hsymbol
  rw [heq, hchars, List.mem_singleton] at hc
  simp [hc, hdigits d hd] at hdigit

end Quantity

namespace Term

/-- Terms whose words tell what they are: finite numbers, names and the operators that compute. -/
inductive Legible : Term → Prop
  | number {quantity : Quantity} (finite : quantity.number.isFinite = true) :
    Legible (number quantity)
  | identifier {name : String} (isName : IsName name) : Legible (identifier name)
  | operator {symbol : String} (computes : symbol ∈ ["+", "-", "*", "/"]) :
    Legible (operator symbol)
  | call {name : String} {arguments : List (List Term)} (isName : IsName name)
    (legible : ∀ terms ∈ arguments, ∀ term ∈ terms, Legible term) : Legible (call name arguments)

/-- What a term's text begins with, up to the first separator. -/
def word : Term → List Char
  | number quantity => quantity.chars
  | identifier name => name.toList
  | operator symbol => symbol.toList
  | call name _ => name.toList

def afterWord : Term → List Char → List Char
  | call _ arguments, rest => '(' :: writeArgumentsBefore arguments (')' :: rest)
  | _, rest => rest

def bare : Term → Term
  | call name _ => identifier name
  | term => term

theorem writeBefore_eq (term : Term) (rest : List Char) :
    term.writeBefore rest = term.word ++ term.afterWord rest := by
  cases term <;> rfl

variable {a b : Term}

theorem Legible.not_isSeparator (h : a.Legible) : ∀ c ∈ a.word, isSeparator c = false := by
  cases h with
  | number finite => exact Quantity.not_isSeparator finite
  | identifier isName => exact isName.uncut
  | operator computes =>
    have huncut : ∀ c ∈ operatorChars, isSeparator c = false := by
      simp [operatorChars, isSeparator, separators]
    obtain ⟨c, hc, hchars⟩ := exists_operatorChar computes
    rw [word, hchars]
    simpa using huncut c hc
  | call isName => exact isName.uncut

theorem Legible.word_ne_nil (h : a.Legible) : a.word ≠ [] := by
  have hne : ∀ {text : List Char} {P : Char → Prop}, (∃ c ∈ text.head?, P c) → text ≠ [] := by
    rintro _ P ⟨c, hc, -⟩ rfl
    cases hc
  cases h with
  | number finite => exact hne (Quantity.chars_begin finite)
  | identifier isName => exact hne isName.begins
  | operator computes =>
    obtain ⟨c, -, hchars⟩ := exists_operatorChar computes
    simp [word, hchars]
  | call isName => exact hne isName.begins

/-- The word tells the kind of a term, its number with the unit, its symbol or its name. -/
theorem Legible.bare_eq_of_word (ha : a.Legible) (hb : b.Legible) (h : a.word = b.word) :
    a.bare = b.bare := by
  cases ha with
  | number finite =>
    cases hb with
    | number finite' => exact congrArg Term.number (Quantity.chars_injective finite finite' h)
    | operator computes => exact absurd h (Quantity.chars_ne_operator finite computes)
    | identifier isName | call isName => exact absurd h.symm (isName.ne_number finite)
  | operator computes =>
    cases hb with
    | number finite => exact absurd h.symm (Quantity.chars_ne_operator finite computes)
    | operator _ => exact congrArg Term.operator (String.toList_injective h)
    | identifier isName | call isName => exact absurd h.symm (isName.ne_operator computes)
  | identifier isName | call isName =>
    cases hb with
    | number finite => exact absurd h (isName.ne_number finite)
    | operator computes => exact absurd h (isName.ne_operator computes)
    | identifier _ | call _ => exact congrArg Term.identifier (String.toList_injective h)

end Term

end LiveStyle
