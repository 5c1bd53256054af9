import LiveStyle.Proofs.Term.Words
import LiveStyle.Proofs.Tree.Induction

/-! # Unambiguous text

Legible expressions with one text are equal, except that a call without arguments is written
like the call with one empty argument.  A term is read back by its word and by the character
behind the word; what follows a term, an expression or an argument list begins with a separator
of its own, so the rest of the text never has to be guessed.
-/
namespace LiveStyle
namespace Term

/-! ## Calls without arguments -/

def orEmpty : List (List Term) → List (List Term)
  | [] => [[]]
  | arguments => arguments

theorem map_orEmpty (f : List Term → List Term) (hf : f [] = []) (arguments : List (List Term)) :
    (orEmpty arguments).map f = orEmpty (arguments.map f) := by
  cases arguments with
  | nil => simp [orEmpty, hf]
  | cons => rfl

mutual

/-- The term with one empty argument in every call that has none. -/
def normal : Term → Term
  | call name arguments => call name (orEmpty (normalArguments arguments))
  | term => term

def normalArguments : List (List Term) → List (List Term)
  | [] => []
  | terms :: arguments => normalTerms terms :: normalArguments arguments

def normalTerms : List Term → List Term
  | [] => []
  | term :: terms => normal term :: normalTerms terms

end

theorem normalTerms_eq_map (terms : List Term) : normalTerms terms = terms.map normal := by
  induction terms with
  | nil => rfl
  | cons term terms ih => rw [normalTerms, ih, List.map_cons]

theorem normalArguments_eq_map (arguments : List (List Term)) :
    normalArguments arguments = arguments.map (List.map normal) := by
  induction arguments with
  | nil => rfl
  | cons terms arguments ih => rw [normalArguments, normalTerms_eq_map, ih, List.map_cons]

theorem normal_call (name : String) (arguments : List (List Term)) :
    (call name arguments).normal = call name ((orEmpty arguments).map (List.map normal)) := by
  rw [normal, normalArguments_eq_map, map_orEmpty _ List.map_nil]

/-! ## The text one term, one argument at a time -/

/-- What stands behind the first term of an expression. -/
def afterTerm : List Term → List Char → List Char
  | [], rest => rest
  | terms, rest => ' ' :: writeTermsBefore terms rest

def afterArgument : List (List Term) → List Char → List Char
  | [], rest => rest
  | arguments, rest => ',' :: ' ' :: writeArgumentsBefore arguments rest

theorem writeTermsBefore_cons (term : Term) (terms : List Term) (rest : List Char) :
    writeTermsBefore (term :: terms) rest = term.writeBefore (afterTerm terms rest) := by
  cases terms <;> rfl

theorem writeArgumentsBefore_cons (terms : List Term) (arguments : List (List Term))
    (rest : List Char) : writeArgumentsBefore (terms :: arguments) rest =
      writeTermsBefore terms (afterArgument arguments rest) := by
  cases arguments <;> rfl

theorem afterArgument_orEmpty (arguments : List (List Term)) (rest : List Char) :
    afterArgument (orEmpty arguments) rest = ',' :: ' ' :: writeArgumentsBefore arguments rest := by
  cases arguments <;> rfl

theorem writeArgumentsBefore_orEmpty (arguments : List (List Term)) (rest : List Char) :
    writeArgumentsBefore (orEmpty arguments) rest = writeArgumentsBefore arguments rest := by
  cases arguments <;> rfl

section Map
variable {f : Term → Term}

theorem writeTermsBefore_map {terms : List Term}
    (hf : ∀ term ∈ terms, ∀ rest, (f term).writeBefore rest = term.writeBefore rest)
    (rest : List Char) : writeTermsBefore (terms.map f) rest = writeTermsBefore terms rest := by
  induction terms with
  | nil => rfl
  | cons term terms ih =>
    have hafter : afterTerm (terms.map f) rest = afterTerm terms rest := by
      have hterms := ih fun t ht => hf t (List.mem_cons_of_mem _ ht)
      rcases terms with _ | ⟨next, terms⟩
      · rfl
      · exact congrArg (' ' :: ·) hterms
    rw [List.map_cons, writeTermsBefore_cons, writeTermsBefore_cons, hafter,
      hf term List.mem_cons_self]

theorem writeArgumentsBefore_map {arguments : List (List Term)}
    (hf : ∀ terms ∈ arguments, ∀ term ∈ terms, ∀ rest,
      (f term).writeBefore rest = term.writeBefore rest) (rest : List Char) :
    writeArgumentsBefore (arguments.map (List.map f)) rest =
      writeArgumentsBefore arguments rest := by
  induction arguments with
  | nil => rfl
  | cons terms arguments ih =>
    have hafter : afterArgument (arguments.map (List.map f)) rest =
        afterArgument arguments rest := by
      have harguments := ih fun t ht => hf t (List.mem_cons_of_mem _ ht)
      rcases arguments with _ | ⟨next, arguments⟩
      · rfl
      · exact congrArg (fun text => ',' :: ' ' :: text) harguments
    rw [List.map_cons, writeArgumentsBefore_cons, writeArgumentsBefore_cons, hafter,
      writeTermsBefore_map (hf terms List.mem_cons_self)]

end Map

/-- An empty argument in place of none does not show. -/
theorem writeBefore_normal (term : Term) (rest : List Char) :
    term.normal.writeBefore rest = term.writeBefore rest := by
  induction term generalizing rest with
  | number | identifier | operator => rfl
  | call name arguments ih =>
    rw [normal_call, map_orEmpty _ List.map_nil, writeBefore, writeBefore,
      writeArgumentsBefore_orEmpty, writeArgumentsBefore_map ih]

/-! ## Reading back -/

/-- Text that goes on behind a term without arguments. -/
def Stops (rest : List Char) : Prop := ∀ c ∈ rest.head?, c ∈ [' ', ',', ')']

/-- Text that goes on behind an expression. -/
def Closes (rest : List Char) : Prop := ∀ c ∈ rest.head?, c ∈ [',', ')']

section Follow
variable {rest : List Char}

theorem Stops.isSeparator (h : Stops rest) : ∀ c ∈ rest.head?, isSeparator c = true := by
  intro c hc
  have hmem := h c hc
  simp only [List.mem_cons, List.not_mem_nil, or_false] at hmem
  rcases hmem with rfl | rfl | rfl <;> decide

theorem Stops.ne_arguments (h : Stops rest) (text : List Char) : rest ≠ '(' :: text := by
  rintro rfl
  exact absurd (h '(' rfl) (by decide)

theorem Closes.stops (h : Closes rest) : Stops rest :=
  fun c hc => List.mem_cons_of_mem _ (h c hc)

theorem Closes.ne_term (h : Closes rest) (text : List Char) : rest ≠ ' ' :: text := by
  rintro rfl
  exact absurd (h ' ' rfl) (by decide)

theorem stops_afterTerm (h : Closes rest) (terms : List Term) :
    Stops (afterTerm terms rest) := by
  rcases terms with _ | ⟨term, terms⟩
  · exact h.stops
  · rintro c ⟨⟩
    decide

theorem closes_afterArgument (arguments : List (List Term)) (rest : List Char) :
    Closes (afterArgument arguments (')' :: rest)) := by
  rcases arguments with _ | ⟨terms, arguments⟩
  · rintro c ⟨⟩
    decide
  · rintro c ⟨⟩
    decide

theorem isSeparator_afterWord (a : Term) (h : Stops rest) :
    ∀ c ∈ (a.afterWord rest).head?, LiveStyle.isSeparator c = true := by
  cases a with
  | call =>
    rintro c ⟨⟩
    decide
  | _ => exact h.isSeparator

end Follow

variable {a b : Term} {rest rest' : List Char}

/-- A term's word can be cut off, and what it leaves out are the arguments. -/
theorem Legible.cut (ha : a.Legible) (hb : b.Legible) (hrest : Stops rest) (hrest' : Stops rest')
    (h : a.writeBefore rest = b.writeBefore rest') :
    a.bare = b.bare ∧ a.afterWord rest = b.afterWord rest' := by
  rw [writeBefore_eq, writeBefore_eq] at h
  obtain ⟨hword, hafter⟩ := append_inj_of_stop (fun c => !isSeparator c)
    (fun c hc => by simp [ha.not_isSeparator c hc]) (fun c hc => by simp [hb.not_isSeparator c hc])
    (fun c hc => by simp [a.isSeparator_afterWord hrest c hc])
    (fun c hc => by simp [b.isSeparator_afterWord hrest' c hc]) h
  exact ⟨ha.bare_eq_of_word hb hword, hafter⟩

/-- The term can be read off every text that it begins. -/
def Readable (a : Term) : Prop :=
  ∀ {b : Term} {rest rest' : List Char}, b.Legible → Stops rest → Stops rest' →
    a.writeBefore rest = b.writeBefore rest' → a.normal = b.normal ∧ rest = rest'

theorem Legible.writeBefore_ne (ha : a.Legible) (hrest : Stops rest) :
    a.writeBefore rest' ≠ rest := by
  intro h
  obtain ⟨c, word, hword⟩ := List.exists_cons_of_ne_nil ha.word_ne_nil
  have hinside := ha.not_isSeparator c (by simp [hword])
  rw [writeBefore_eq, hword] at h
  have hseparator := hrest.isSeparator c (by simp [← h])
  simp [hinside] at hseparator

theorem writeTermsBefore_of_afterTerm {as bs : List Term} (hrest : Closes rest)
    (hrest' : Closes rest') (h : afterTerm as rest = afterTerm bs rest') :
    writeTermsBefore as rest = writeTermsBefore bs rest' := by
  rcases as with _ | ⟨a, as⟩ <;> rcases bs with _ | ⟨b, bs⟩
  · exact h
  · exact absurd h (hrest.ne_term _)
  · exact absurd h.symm (hrest'.ne_term _)
  · exact List.tail_eq_of_cons_eq h

/-- Term by term: a further term is announced by its space, which nothing else behind a term
begins with. -/
theorem readable_terms {as bs : List Term} (ha : ∀ a ∈ as, a.Legible ∧ a.Readable)
    (hb : ∀ b ∈ bs, b.Legible) (hrest : Closes rest) (hrest' : Closes rest')
    (h : writeTermsBefore as rest = writeTermsBefore bs rest') :
    as.map normal = bs.map normal ∧ rest = rest' := by
  induction as generalizing bs with
  | nil =>
    rcases bs with _ | ⟨b, bs⟩
    · exact ⟨rfl, h⟩
    · rw [writeTermsBefore_cons] at h
      exact absurd h.symm ((hb b List.mem_cons_self).writeBefore_ne hrest.stops)
  | cons a as ih =>
    obtain ⟨⟨hlegible, hreadable⟩, has⟩ := List.forall_mem_cons.mp ha
    rcases bs with _ | ⟨b, bs⟩
    · rw [writeTermsBefore_cons] at h
      exact absurd h (hlegible.writeBefore_ne hrest'.stops)
    · obtain ⟨hb, hbs⟩ := List.forall_mem_cons.mp hb
      rw [writeTermsBefore_cons, writeTermsBefore_cons] at h
      obtain ⟨hnormal, hafter⟩ :=
        hreadable hb (stops_afterTerm hrest as) (stops_afterTerm hrest' bs) h
      obtain ⟨hnormals, hrests⟩ := ih has hbs (writeTermsBefore_of_afterTerm hrest hrest' hafter)
      exact ⟨by rw [List.map_cons, List.map_cons, hnormal, hnormals], hrests⟩

/-- Argument by argument, from a first one that commas precede like the others. -/
theorem readable_afterArgument {as bs : List (List Term)}
    (ha : ∀ terms ∈ as, ∀ a ∈ terms, a.Legible ∧ a.Readable)
    (hb : ∀ terms ∈ bs, ∀ b ∈ terms, b.Legible)
    (h : afterArgument as (')' :: rest) = afterArgument bs (')' :: rest')) :
    as.map (List.map normal) = bs.map (List.map normal) ∧ rest = rest' := by
  induction as generalizing bs with
  | nil =>
    rcases bs with _ | ⟨terms, bs⟩
    · exact ⟨rfl, List.tail_eq_of_cons_eq h⟩
    · exact absurd (List.head_eq_of_cons_eq h) (by decide)
  | cons terms as ih =>
    obtain ⟨hterms, has⟩ := List.forall_mem_cons.mp ha
    rcases bs with _ | ⟨terms', bs⟩
    · exact absurd (List.head_eq_of_cons_eq h) (by decide)
    · obtain ⟨hterms', hbs⟩ := List.forall_mem_cons.mp hb
      have hwritten := List.tail_eq_of_cons_eq (List.tail_eq_of_cons_eq h)
      rw [writeArgumentsBefore_cons, writeArgumentsBefore_cons] at hwritten
      obtain ⟨hnormals, hafter⟩ := readable_terms hterms hterms' (closes_afterArgument as rest)
        (closes_afterArgument bs rest') hwritten
      obtain ⟨harguments, hrests⟩ := ih has hbs hafter
      exact ⟨by rw [List.map_cons, List.map_cons, hnormals, harguments], hrests⟩

theorem forall_mem_orEmpty {P : Term → Prop} {arguments : List (List Term)}
    (h : ∀ terms ∈ arguments, ∀ term ∈ terms, P term) :
    ∀ terms ∈ orEmpty arguments, ∀ term ∈ terms, P term := by
  cases arguments with
  | nil => simp [orEmpty]
  | cons => exact h

theorem readable_arguments {as bs : List (List Term)}
    (ha : ∀ terms ∈ as, ∀ a ∈ terms, a.Legible ∧ a.Readable)
    (hb : ∀ terms ∈ bs, ∀ b ∈ terms, b.Legible)
    (h : writeArgumentsBefore as (')' :: rest) = writeArgumentsBefore bs (')' :: rest')) :
    (orEmpty as).map (List.map normal) = (orEmpty bs).map (List.map normal) ∧ rest = rest' := by
  -- No argument and an empty one are written alike, so only with one in place of none do the
  -- lists correspond.
  refine readable_afterArgument (forall_mem_orEmpty ha) (forall_mem_orEmpty hb) ?_
  rw [afterArgument_orEmpty, afterArgument_orEmpty, h]

/-- Every legible term can be read back. -/
theorem Legible.readable (ha : a.Legible) : a.Readable := by
  induction ha with
  | number finite =>
    intro b rest rest' hb hrest hrest' h
    obtain ⟨hbare, hafter⟩ := (Legible.number finite).cut hb hrest hrest' h
    cases hb <;> cases hbare
    exact ⟨rfl, hafter⟩
  | operator computes =>
    intro b rest rest' hb hrest hrest' h
    obtain ⟨hbare, hafter⟩ := (Legible.operator computes).cut hb hrest hrest' h
    cases hb <;> cases hbare
    exact ⟨rfl, hafter⟩
  | identifier isName =>
    intro b rest rest' hb hrest hrest' h
    obtain ⟨hbare, hafter⟩ := (Legible.identifier isName).cut hb hrest hrest' h
    cases hb <;> cases hbare
    · exact ⟨rfl, hafter⟩
    · exact absurd hafter (hrest.ne_arguments _)
  | call isName legible ih =>
    intro b rest rest' hb hrest hrest' h
    obtain ⟨hbare, hafter⟩ := (Legible.call isName legible).cut hb hrest hrest' h
    cases hb with
    | call _ legible' =>
      cases hbare
      obtain ⟨harguments, hrests⟩ := readable_arguments
        (fun terms hterms a ha => ⟨legible terms hterms a ha, ih terms hterms a ha⟩) legible'
        (List.tail_eq_of_cons_eq hafter)
      exact ⟨by rw [normal_call, normal_call, harguments], hrests⟩
    | identifier _ => exact absurd hafter.symm (hrest'.ne_arguments _)
    | number _ | operator _ => cases hbare

/-! ## Expressions with one text -/

theorem normal_of_kind_ne (hkind : a.kind ≠ "function") : a.normal = a := by
  cases a with
  | call => exact absurd rfl hkind
  | _ => rfl

theorem eq_of_normal_eq (hkind : a.kind ≠ "function") (h : b.normal = a.normal) : b = a := by
  rw [normal_of_kind_ne hkind] at h
  cases b with
  | call =>
    subst h
    exact absurd rfl hkind
  | _ => exact h

/-- Calls that differ in empty arguments alone cut their arguments alike. -/
theorem exists_call_of_normal_eq {name : String} {arguments : List (List Term)}
    (h : (call name arguments).normal = b.normal) : ∃ arguments', b = call name arguments' ∧
      (orEmpty arguments).map List.length = (orEmpty arguments').map List.length := by
  cases b with
  | call name' arguments' =>
    rw [normal_call, normal_call] at h
    injection h with hname harguments
    refine ⟨arguments', by rw [hname], ?_⟩
    simpa [Function.comp_def] using congrArg (List.map List.length) harguments
  | _ =>
    rw [normal_call] at h
    cases h

end Term

namespace Expression
open Term

variable {a b : Expression}

theorem text_eq_iff_normal (ha : ∀ term ∈ a, term.Legible) (hb : ∀ term ∈ b, term.Legible) :
    text a = text b ↔ a.map normal = b.map normal := by
  have hend : Closes [] := nofun
  constructor
  · intro h
    exact (readable_terms (fun term hterm => ⟨ha term hterm, (ha term hterm).readable⟩) hb hend hend
      (String.ofList_injective h)).1
  · intro h
    rw [text, text, ← writeTermsBefore_map fun term _ => writeBefore_normal term, h,
      writeTermsBefore_map fun term _ => writeBefore_normal term]

/-- Two legible expressions are written alike exactly when they are equal up to calls without
arguments, which are written like calls with one empty argument.  Then they have as many terms;
numbers with their units, operators and identifiers are the same at each place, and so are the
names of calls, the number of their arguments and the number of terms in each. -/
theorem rendering_unambiguous (ha : ∀ term ∈ a, term.Legible) (hb : ∀ term ∈ b, term.Legible) :
    (text a = text b ↔ a.map normal = b.map normal) ∧
    (text a = text b → a.length = b.length ∧ ∀ i : Nat,
      (∀ term : Term, term.kind ≠ "function" → (a[i]? = some term ↔ b[i]? = some term)) ∧
      ∀ name arguments, a[i]? = some (.call name arguments) →
        ∃ arguments', b[i]? = some (.call name arguments') ∧
          (orEmpty arguments).map List.length = (orEmpty arguments').map List.length) := by
  refine ⟨text_eq_iff_normal ha hb, fun htext => ?_⟩
  have hnormal := (text_eq_iff_normal ha hb).mp htext
  refine ⟨by simpa using congrArg List.length hnormal, fun i => ?_⟩
  have hplace : a[i]?.map normal = b[i]?.map normal := by
    rw [← List.getElem?_map, ← List.getElem?_map, hnormal]
  generalize a[i]? = s at hplace
  generalize b[i]? = t at hplace
  rcases s with _ | s <;> rcases t with _ | t
  · exact ⟨fun _ _ => Iff.rfl, nofun⟩
  · cases hplace
  · cases hplace
  have hsame : s.normal = t.normal := Option.some.inj hplace
  refine ⟨fun term hkind => ⟨?_, ?_⟩, ?_⟩
  · rintro ⟨⟩
    rw [eq_of_normal_eq hkind hsame.symm]
  · rintro ⟨⟩
    rw [eq_of_normal_eq hkind hsame]
  · rintro name arguments ⟨⟩
    obtain ⟨arguments', rfl, hlengths⟩ := exists_call_of_normal_eq hsame
    exact ⟨arguments', rfl, hlengths⟩

/-- A negative number in place of an operator and a number shows; an empty argument does not. -/
theorem rendering_unambiguous_signs :
    let quarter : Quantity := ⟨0.25, some .metre⟩
    let a : Expression := [.call "f" [], .operator "-", .number quarter]
    let b : Expression := [.call "f" [[]], .operator "-", .number quarter]
    let c : Expression := [.call "f" [], .number ⟨-0.25, some .metre⟩]
    (∀ term ∈ a, term.Legible) ∧ (∀ term ∈ b, term.Legible) ∧ (∀ term ∈ c, term.Legible) ∧
      text a = text b ∧ text a ≠ text c := by
  intro quarter a b c
  have hname : IsName "f" := isName_of_letter 'f' [] rfl (by decide) (by simp)
  have hcall : (Term.call "f" []).Legible := .call hname (by simp)
  have hcall' : (Term.call "f" [[]]).Legible := .call hname (by simp)
  have hminus : (Term.operator "-").Legible := .operator (by decide)
  have hquarter : (Term.number quarter).Legible := .number (by decide)
  have hnegative : (Term.number ⟨-0.25, some .metre⟩).Legible := .number (by decide)
  have ha : ∀ term ∈ a, term.Legible := by simp [a, hcall, hminus, hquarter]
  have hb : ∀ term ∈ b, term.Legible := by simp [b, hcall', hminus, hquarter]
  have hc : ∀ term ∈ c, term.Legible := by simp [c, hcall, hnegative]
  refine ⟨ha, hb, hc, (rendering_unambiguous ha hb).1.mpr rfl, fun htext => ?_⟩
  exact absurd ((rendering_unambiguous ha hc).2 htext).1 (by decide)

end Expression
end LiveStyle
