import LiveStyle.Quantity.Arithmetic
import LiveStyle.Term.Basic

/-! # Series of operands

A list of terms that alternates between operands and operators is a series: a first
operand, then pairs of an operator symbol and an operand.  Cut at every symbol that does
not bind tight, a series falls into segments; each segment is a product, and the whole a
sum of them.
-/
namespace LiveStyle

namespace Term

/-- The symbol of an operator term; every other term is an operand. -/
def symbol? : Term → Option String
  | operator symbol => some symbol
  | _ => none

@[simp] theorem symbol?_operator (symbol : String) : (operator symbol).symbol? = some symbol := rfl

theorem eq_operator {term : Term} {symbol : String} (h : term.symbol? = some symbol) :
    term = operator symbol := by
  cases term with
  | operator found =>
    cases h
    rfl
  | _ => cases h

/-- Operand, operator, operand and so on, up to an operand. -/
def alternates : List Term → Bool
  | [] => false
  | [term] => term.symbol?.isNone
  | term :: next :: terms => term.symbol?.isNone && next.symbol?.isSome && alternates terms

end Term

abbrev Operand := { term : Term // term.symbol? = none }

structure Series (α : Type) where
  first : α
  rest : List (String × α)

namespace Series

variable {α β : Type}

def map (f : α → β) (series : Series α) : Series β :=
  ⟨f series.first, series.rest.map fun next => (next.1, f next.2)⟩

def fold (combine : String → α → α → α) (series : Series α) : α :=
  series.rest.foldl (fun left next => combine next.1 left next.2) series.first

def members (series : Series α) : List α := series.first :: series.rest.map Prod.snd

def followers (member : α → β) (symbol : String → β) (rest : List (String × α)) : List β :=
  rest.flatMap fun next => [symbol next.1, member next.2]

/-- Members and symbols in one list, as they stand. -/
def entries (member : α → β) (symbol : String → β) (series : Series α) : List β :=
  member series.first :: followers member symbol series.rest

def terms (series : Series Operand) : List Term := series.entries Subtype.val Term.operator

def append (left : Series α) (symbol : String) (right : Series α) : Series α :=
  ⟨left.first, left.rest ++ (symbol, right.first) :: right.rest⟩

/-- The rest of the running segment, and the segments that follow it. -/
def cutRest : List (String × α) → List (String × α) × List (String × Series α)
  | [] => ([], [])
  | (symbol, member) :: rest =>
    let (segment, segments) := cutRest rest
    if symbolBindsTight symbol then ((symbol, member) :: segment, segments)
    else ([], (symbol, ⟨member, segment⟩) :: segments)

/-- The segments between the symbols that do not bind tight, with these symbols between them. -/
def cut (series : Series α) : Series (Series α) :=
  ⟨⟨series.first, (cutRest series.rest).1⟩, (cutRest series.rest).2⟩

def flatten (segments : Series (Series α)) : Series α :=
  ⟨segments.first.first, segments.first.rest ++
    segments.rest.flatMap fun next => (next.1, next.2.first) :: next.2.rest⟩

/-- Symbols within segments are `*` and `/`, and symbols between them are neither. -/
structure TwoLevel (segments : Series (Series α)) : Prop where
  within : ∀ segment ∈ segments.members, ∀ next ∈ segment.rest, next.1 = "*" ∨ next.1 = "/"
  between : ∀ next ∈ segments.rest, next.1 ≠ "*" ∧ next.1 ≠ "/"

@[simp] theorem followers_nil (member : α → β) (symbol : String → β) :
    followers member symbol [] = [] := rfl

@[simp] theorem followers_cons (member : α → β) (symbol : String → β) (next : String × α)
    (rest : List (String × α)) :
    followers member symbol (next :: rest) =
      symbol next.1 :: member next.2 :: followers member symbol rest := rfl

theorem followers_append (member : α → β) (symbol : String → β) (xs ys : List (String × α)) :
    followers member symbol (xs ++ ys) =
      followers member symbol xs ++ followers member symbol ys :=
  List.flatMap_append

theorem terms_append (left : Series Operand) (symbol : String) (right : Series Operand) :
    (left.append symbol right).terms = left.terms ++ .operator symbol :: right.terms := by
  simp [append, terms, entries, followers_append]

theorem val_mem_terms {series : Series Operand} {operand : Operand}
    (h : operand ∈ series.members) : operand.val ∈ series.terms := by
  rcases List.mem_cons.mp h with rfl | h
  · exact List.mem_cons_self
  · obtain ⟨next, hnext, rfl⟩ := List.mem_map.mp h
    apply List.mem_cons_of_mem
    exact List.mem_flatMap.mpr ⟨next, hnext, by simp⟩

theorem map_map {γ : Type} (f : α → β) (g : β → γ) (series : Series α) :
    (series.map f).map g = series.map fun member => g (f member) := by
  simp [map]

theorem cutRest_tight {symbol : String} (h : symbolBindsTight symbol = true) (member : α)
    (rest : List (String × α)) :
    cutRest ((symbol, member) :: rest) =
      ((symbol, member) :: (cutRest rest).1, (cutRest rest).2) := by
  simp [cutRest, h]

theorem cutRest_loose {symbol : String} (h : symbolBindsTight symbol = false) (member : α)
    (rest : List (String × α)) :
    cutRest ((symbol, member) :: rest) =
      ([], (symbol, ⟨member, (cutRest rest).1⟩) :: (cutRest rest).2) := by
  simp [cutRest, h]

/-- Cutting loses no member and moves none. -/
@[simp] theorem flatten_cut (series : Series α) : series.cut.flatten = series := by
  have hrest (rest : List (String × α)) :
      (cutRest rest).1 ++ (cutRest rest).2.flatMap
        (fun next => (next.1, next.2.first) :: next.2.rest) = rest := by
    induction rest with
    | nil => rfl
    | cons next rest ih =>
      obtain ⟨symbol, member⟩ := next
      cases h : symbolBindsTight symbol with
      | true => simp [cutRest_tight h, ih]
      | false => simp [cutRest_loose h, ih]
  rcases series with ⟨first, rest⟩
  simp only [flatten, cut, hrest]

theorem twoLevel_cut (series : Series α) : series.cut.TwoLevel := by
  have hrest (rest : List (String × α)) :
      (∀ next ∈ (cutRest rest).1, next.1 = "*" ∨ next.1 = "/") ∧
        ∀ next ∈ (cutRest rest).2, (next.1 ≠ "*" ∧ next.1 ≠ "/") ∧
          ∀ inner ∈ next.2.rest, inner.1 = "*" ∨ inner.1 = "/" := by
    induction rest with
    | nil => simp [cutRest]
    | cons next rest ih =>
      obtain ⟨symbol, member⟩ := next
      cases h : symbolBindsTight symbol with
      | true =>
        rw [cutRest_tight h]
        exact ⟨List.forall_mem_cons.mpr ⟨symbolBindsTight_eq_true_iff.mp h, ih.1⟩, ih.2⟩
      | false =>
        rw [cutRest_loose h]
        have hsymbol := symbolBindsTight_eq_false_iff.mp h
        exact ⟨by simp, List.forall_mem_cons.mpr ⟨⟨hsymbol, ih.1⟩, ih.2⟩⟩
  obtain ⟨hfirst, hnext⟩ := hrest series.rest
  constructor
  · intro segment hs
    rcases List.mem_cons.mp hs with rfl | hs
    · exact hfirst
    · obtain ⟨next, hn, rfl⟩ := List.mem_map.mp hs
      exact (hnext next hn).2
  · exact fun next hn => (hnext next hn).1

theorem cutRest_map (f : α → β) (rest : List (String × α)) :
    cutRest (rest.map fun next => (next.1, f next.2)) =
      ((cutRest rest).1.map fun next => (next.1, f next.2),
        (cutRest rest).2.map fun next => (next.1, next.2.map f)) := by
  induction rest with
  | nil => rfl
  | cons next rest ih =>
    obtain ⟨symbol, member⟩ := next
    cases h : symbolBindsTight symbol with
    | true => simp [cutRest_tight h, ih]
    | false => simp [cutRest_loose h, ih, map]

/-- Where a series is cut depends on its symbols alone. -/
theorem cut_map (f : α → β) (series : Series α) :
    (series.map f).cut = series.cut.map fun segment => segment.map f := by
  simp [cut, map, cutRest_map]

/-- The alternating lists are the terms of series. -/
theorem alternates_iff (list : List Term) :
    Term.alternates list = true ↔ ∃ series : Series Operand, series.terms = list := by
  constructor
  · intro h
    induction list using Term.alternates.induct with
    | case1 => cases h
    | case2 term => exact ⟨⟨⟨term, by simpa [Term.alternates] using h⟩, []⟩, rfl⟩
    | case3 term next terms ih =>
      simp only [Term.alternates, Bool.and_eq_true, Option.isNone_iff_eq_none] at h
      obtain ⟨⟨hterm, hnext⟩, hterms⟩ := h
      obtain ⟨series, rfl⟩ := ih hterms
      cases next with
      | operator symbol =>
        exact ⟨⟨⟨term, hterm⟩, (symbol, series.first) :: series.rest⟩, rfl⟩
      | _ => cases hnext
  · rintro ⟨⟨first, rest⟩, rfl⟩
    induction rest generalizing first with
    | nil => simp [terms, entries, Term.alternates, first.property]
    | cons next rest ih =>
      have hterms := ih next.2
      simp only [terms, entries] at hterms ⊢
      rw [followers_cons, Term.alternates, hterms, first.property]
      rfl

end Series
end LiveStyle
