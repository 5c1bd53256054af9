import LiveStyle.Proofs.Evaluation.Interchange
import LiveStyle.Proofs.Evaluation.RunningTotal

/-! # Redundant groups

A calculation in a list groups the terms that it holds.  The group is redundant where one pass over
the list brings them together anyway: around a single operand, around the beginning of a segment,
and around the beginning of the list as far as a symbol that does not bind tight.  With a redundant
group more, a calculation is a different tree that is worth the same.
-/
namespace LiveStyle

namespace Series

variable {α : Type}

def ledBy (left : Option (Series α × String)) (series : Series α) : Series α :=
  match left with
  | none => series
  | some (front, symbol) => front.append symbol series

def followedBy (series : Series α) (right : List (String × α)) : Series α :=
  ⟨series.first, series.rest ++ right⟩

def group (series : Series Operand) : Operand := ⟨.call "calc" [series.terms], rfl⟩

/-- Where a group changes nothing, by what stands in front of it and behind it. -/
inductive Redundant (left : Option (Series α × String)) :
    Series α → List (String × α) → Prop
  | operand (first : α) (right : List (String × α)) : Redundant left ⟨first, []⟩ right
  /-- The beginning of a segment: all symbols in the group are `*` or `/`, and what is in front, if
  anything, ends in another symbol. -/
  | segment {inner : Series α} (right : List (String × α)) :
      (∀ next ∈ inner.rest, next.1 = "*" ∨ next.1 = "/") →
      (∀ front ∈ left, front.2 ≠ "*" ∧ front.2 ≠ "/") → Redundant left inner right
  /-- The beginning of the list: neither `*` nor `/` comes next. -/
  | beginning {inner : Series α} {right : List (String × α)} : left = none →
      (∀ next ∈ right.head?, next.1 ≠ "*" ∧ next.1 ≠ "/") → Redundant left inner right

/-- The second series has one redundant group more than the first. -/
inductive Grouping : Series Operand → Series Operand → Prop
  | intro {left : Option (Series Operand × String)} {inner : Series Operand}
      {right : List (String × Operand)} : Redundant left inner right →
      Grouping (ledBy left (inner.followedBy right)) (ledBy left ⟨inner.group, right⟩)

end Series

/-- A term with one redundant group more, in a list at any depth. -/
inductive Term.Regrouped : Term → Term → Prop
  | within (frames : List Frame) {old new : Series Operand} : Series.Grouping old new →
      Regrouped (Term.within frames old.group.val) (Term.within frames new.group.val)

namespace Running

section Alike
variable {α : Type} {combine : String → α → α → α} {R : α → α → Prop}

structure Alike (R : α → α → Prop) (now other : Running α) : Prop where
  total : Option.Rel (fun kept kept' => R kept.1 kept'.1 ∧ kept.2 = kept'.2) now.total other.total
  segment : R now.segment other.segment

theorem Alike.refl (hrefl : ∀ a, R a a) (now : Running α) : now.Alike R now := by
  rcases now with ⟨_ | kept, segment⟩
  · exact ⟨.none, hrefl segment⟩
  · exact ⟨.some ⟨hrefl kept.1, rfl⟩, hrefl segment⟩

variable (hcombine : ∀ symbol {a b c d : α}, R a b → R c d →
  R (combine symbol a c) (combine symbol b d)) {now other : Running α}
include hcombine

theorem Alike.close (h : now.Alike R other) : R (now.close combine) (other.close combine) := by
  rcases now with ⟨total, segment⟩
  rcases other with ⟨total', segment'⟩
  obtain ⟨htotal, hsegment⟩ := h
  cases htotal with
  | none => exact hsegment
  | @some kept kept' hkept =>
    obtain ⟨_, symbol⟩ := kept
    obtain ⟨_, symbol'⟩ := kept'
    obtain ⟨hvalue, rfl⟩ := hkept
    exact hcombine symbol hvalue hsegment

theorem Alike.take (h : now.Alike R other) (symbol : String) {a b : α} (hab : R a b) :
    (now.take combine symbol a).Alike R (other.take combine symbol b) := by
  cases hsymbol : symbolBindsTight symbol with
  | true =>
    rw [take_tight hsymbol, take_tight hsymbol]
    exact ⟨h.total, hcombine symbol h.segment hab⟩
  | false =>
    rw [take_loose hsymbol, take_loose hsymbol]
    exact ⟨.some ⟨h.close hcombine, rfl⟩, hab⟩

theorem Alike.takeAll (hrefl : ∀ a, R a a) (h : now.Alike R other) (rest : List (String × α)) :
    (now.takeAll combine rest).Alike R (other.takeAll combine rest) := by
  induction rest generalizing now other with
  | nil => exact h
  | cons next rest ih => exact ih (h.take hcombine next.1 (hrefl next.2))

end Alike

variable {α : Type} {combine : String → α → α → α}

theorem takeAll_append (rest more : List (String × α)) (now : Running α) :
    now.takeAll combine (rest ++ more) = (now.takeAll combine rest).takeAll combine more :=
  List.foldl_append

/-- Tight symbols leave the total alone. -/
theorem takeAll_tight {rest : List (String × α)}
    (h : ∀ next ∈ rest, symbolBindsTight next.1 = true) (now : Running α) :
    now.takeAll combine rest = ⟨now.total, Series.fold combine ⟨now.segment, rest⟩⟩ := by
  induction rest generalizing now with
  | nil => rfl
  | cons next rest ih =>
    obtain ⟨hnext, hrest⟩ := List.forall_mem_cons.mp h
    rw [takeAll_cons, take_tight hnext, ih hrest]
    rfl

end Running

namespace Node
open Series Slot Running

section Kept
variable (policy : DivisionPolicy)

def nodes (rest : List (String × Operand)) : List (String × Node) :=
  rest.map fun next => (next.1, leaf policy next.2.val)

/-- What a pass over the series keeps. -/
def kept (series : Series Operand) : Running Node :=
  Running.takeAll (join policy) (nodes policy series.rest) ⟨none, leaf policy series.first.val⟩

/-- What is kept when a node comes after what stands in front of it. -/
def entered (left : Option (Series Operand × String)) (first : Node) : Running Node :=
  match left with
  | none => ⟨none, first⟩
  | some (front, symbol) => (kept policy front).take (join policy) symbol first

theorem kept_ledBy (left : Option (Series Operand × String)) (series : Series Operand) :
    kept policy (series.ledBy left) =
      (entered policy left (leaf policy series.first.val)).takeAll (join policy)
        (nodes policy series.rest) := by
  cases left with
  | none => rfl
  | some front =>
    rw [ledBy, Series.append, kept, nodes, List.map_append, List.map_cons, takeAll_append,
      takeAll_cons]
    rfl

theorem leaf_group (series : Series Operand) :
    leaf policy series.group.val = enclose ((kept policy series).close (join policy)) := by
  change (ofCalculation policy "calc" [series.terms] #[]).1 = _
  rw [ofCalculation_fst, build_terms, sum_cut_eq_close]
  rfl

theorem interchangeable_leaf_group (series : Series Operand) :
    (leaf policy series.group.val).Interchangeable ((kept policy series).close (join policy)) := by
  rw [leaf_group]
  exact .enclose_self _

/-- After a symbol that does not bind tight, or after none, an operand begins a segment. -/
theorem exists_entered {left : Option (Series Operand × String)}
    (h : ∀ front ∈ left, front.2 ≠ "*" ∧ front.2 ≠ "/") :
    ∃ total, ∀ first, entered policy left first = ⟨total, first⟩ := by
  cases left with
  | none => exact ⟨none, fun first => rfl⟩
  | some front =>
    have hloose := symbolBindsTight_eq_false_iff.mpr (h front rfl)
    exact ⟨_, fun first => take_loose hloose first _⟩

theorem interchangeable_join (symbol : String) {a b c d : Node} (hab : a.Interchangeable b)
    (hcd : c.Interchangeable d) :
    (join policy symbol a c).Interchangeable (join policy symbol b d) := .join policy symbol hab hcd

theorem alike_entered (left : Option (Series Operand × String)) {a b : Node}
    (h : a.Interchangeable b) :
    (entered policy left a).Alike Interchangeable (entered policy left b) := by
  cases left with
  | none => exact ⟨.none, h⟩
  | some front => exact (Alike.refl .refl _).take (interchangeable_join policy) front.2 h

theorem interchangeable_of_redundant {left : Option (Series Operand × String)}
    {inner : Series Operand} {right : List (String × Operand)} (h : Redundant left inner right) :
    ((kept policy (ledBy left (inner.followedBy right))).close (join policy)).Interchangeable
      ((kept policy (ledBy left ⟨inner.group, right⟩)).close (join policy)) := by
  have hjoin := @interchangeable_join policy
  have hgroup := (interchangeable_leaf_group policy inner).symm
  -- Where the same is kept after the group as after its terms, what follows makes no difference.
  have hsame (hkept : ((entered policy left (leaf policy inner.first.val)).takeAll (join policy)
      (nodes policy inner.rest)).Alike Interchangeable
        (entered policy left (leaf policy inner.group.val))) :
      ((kept policy (ledBy left (inner.followedBy right))).close (join policy)).Interchangeable
        ((kept policy (ledBy left ⟨inner.group, right⟩)).close (join policy)) := by
    rw [kept_ledBy, kept_ledBy, followedBy, nodes, List.map_append, takeAll_append]
    exact Alike.close hjoin (Alike.takeAll hjoin .refl hkept (nodes policy right))
  cases h with
  | operand first right => exact hsame (alike_entered policy left hgroup)
  | segment right htight hfront =>
    apply hsame
    obtain ⟨total, hentered⟩ := exists_entered policy hfront
    have hnodes : ∀ next ∈ nodes policy inner.rest, symbolBindsTight next.1 = true :=
      List.forall_mem_map.mpr fun next hnext =>
        symbolBindsTight_eq_true_iff.mpr (htight next hnext)
    rw [kept, takeAll_tight hnodes] at hgroup
    rw [hentered, hentered, takeAll_tight hnodes]
    exact ⟨(Alike.refl .refl ⟨total, _⟩).total, hgroup⟩
  | beginning hleft hright =>
    subst hleft
    cases right with
    | nil =>
      rw [followedBy, List.append_nil]
      exact hgroup
    | cons next right =>
      -- The symbol that follows closes the segment, be it that of the last term or of the group.
      have hloose := symbolBindsTight_eq_false_iff.mpr (hright next rfl)
      rw [kept_ledBy, kept_ledBy, followedBy, nodes, List.map_append, takeAll_append,
        List.map_cons, takeAll_cons, nodes, List.map_cons, takeAll_cons, take_loose hloose,
        take_loose hloose]
      apply Alike.close hjoin
      apply Alike.takeAll hjoin .refl
      exact ⟨.some ⟨hgroup, rfl⟩, .refl _⟩

/-- The calculation over a list with a redundant group more is worth the same. -/
theorem interchangeable_of_grouping {old new : Series Operand} (h : Grouping old new) :
    (leaf policy old.group.val).Interchangeable (leaf policy new.group.val) := by
  cases h with
  | intro h =>
    rw [leaf_group, leaf_group]
    exact (interchangeable_of_redundant policy h).enclose

/-- A group at the end of a list is none of these where it follows a `-`. -/
example :
    let one : Operand := ⟨.number (.unitless 1), rfl⟩
    (leaf .ieee (group ⟨one, [("-", one), ("-", one)]⟩).val).fixed? = some (.unitless (-1)) ∧
      (leaf .ieee (group ⟨one, [("-", group ⟨one, [("-", one)]⟩)]⟩).val).fixed? =
        some (.unitless 1) := by
  decide +kernel

theorem interchangeable_of_regrouped {a b : Term} (h : a.Regrouped b) :
    (leaf policy a).Interchangeable (leaf policy b) := by
  cases h with
  | within frames hgrouping =>
    exact (within_sameBut policy (Series.group _).property (Series.group _).property
      frames).interchangeable (interchangeable_of_grouping policy hgrouping)

end Kept

end Node
end LiveStyle
