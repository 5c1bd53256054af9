import LiveStyle.Proofs.Evaluation.Places
import LiveStyle.Proofs.Quantity.Outcomes

/-! # Where the division policies part

Trees of one term under the two policies differ in what becomes of quotients that are not finite.
Over sources that behave identically their values agree everywhere, unless the one tree refuses a
quotient; and it refuses one exactly when the other has a quotient that is not finite.
-/
namespace LiveStyle
open ScrollSource (Alike nth)

namespace Quantity
variable (symbol : String) (left right : Quantity)

theorem jointUnit_ne_nonFiniteQuotient (u v : Option MeasureUnit) :
    jointUnit u v ≠ .error .nonFiniteQuotient := by
  unfold jointUnit
  split
  · split <;> nofun
  · nofun
  · nofun

/-- Either the policies give the same, and a quotient is finite; or the quotient is not finite, and
one policy refuses it. -/
theorem combine_zero_cases :
    (combine .zero symbol left right = combine .ieee symbol left right ∧
      combine .zero symbol left right ≠ .error .nonFiniteQuotient ∧
      (symbol = ArithOp.divide.symbol →
        (combineOrZero .ieee symbol left right).number.isFinite = true)) ∨
    (combine .zero symbol left right = .error .nonFiniteQuotient ∧
      symbol = ArithOp.divide.symbol ∧
      (combineOrZero .ieee symbol left right).number.isFinite = false) := by
  have hzero : zero.number.isFinite = true := by decide
  unfold combineOrZero combine combineInBase
  cases hunit : jointUnit left.toBase.unit right.toBase.unit with
  | error fault =>
    refine .inl ⟨rfl, ?_, fun _ => hzero⟩
    rintro ⟨⟩
    exact jointUnit_ne_nonFiniteQuotient _ _ hunit
  | ok unit =>
    cases hop : ArithOp.ofSymbol? symbol with
    | none => exact .inl ⟨rfl, nofun, fun _ => hzero⟩
    | some op =>
      dsimp only
      rw [DivisionPolicy.ieee_refuses, if_neg Bool.false_ne_true]
      by_cases hdivide : op = .divide
      · subst hdivide
        have hsymbol := ArithOp.ofSymbol?_eq_some_iff.mp hop
        cases hfinite : (ArithOp.divide.apply left.toBase.number right.toBase.number).isFinite with
        | true =>
          left
          simp [DivisionPolicy.refuses, hfinite]
        | false =>
          right
          simp [DivisionPolicy.refuses, hfinite, hsymbol]
      · left
        have hsymbol : symbol ≠ ArithOp.divide.symbol := by
          intro h
          exact hdivide (Option.some.inj (hop.symm.trans (ArithOp.ofSymbol?_eq_some_iff.mpr h)))
        simp [DivisionPolicy.refuses, hdivide, hsymbol]

theorem combine_zero_eq_error_iff :
    combine .zero symbol left right = .error .nonFiniteQuotient ↔
      symbol = ArithOp.divide.symbol ∧
        (combineOrZero .ieee symbol left right).number.isFinite = false := by
  rcases combine_zero_cases symbol left right with ⟨-, hstands, hfinite⟩ | ⟨herror, hquotient⟩
  · refine iff_of_false hstands ?_
    rintro ⟨hsymbol, hinfinite⟩
    rw [hfinite hsymbol] at hinfinite
    cases hinfinite
  · exact iff_of_true herror hquotient

theorem combineOrZero_zero_eq
    (h : combine .zero symbol left right ≠ .error .nonFiniteQuotient) :
    combineOrZero .zero symbol left right = combineOrZero .ieee symbol left right := by
  rcases combine_zero_cases symbol left right with ⟨heq, -, -⟩ | ⟨herror, -⟩
  · rw [combineOrZero, combineOrZero, heq]
  · exact absurd herror h

/-- Where quotients are refused, one is zero or finite. -/
theorem combineOrZero_zero_divide :
    combineOrZero .zero ArithOp.divide.symbol left right = .zero ∨
      (combineOrZero .zero ArithOp.divide.symbol left right).number.isFinite = true := by
  rcases combine_zero_cases ArithOp.divide.symbol left right with ⟨heq, -, hfinite⟩ | ⟨herror, -⟩
  · right
    rw [combineOrZero, heq]
    exact hfinite rfl
  · left
    rw [combineOrZero, herror]

end Quantity

namespace Node

/-- A property of every place of a tree, in the host in which an evaluation of the tree comes to
it. -/
def Throughout {σ : Type} [ScrollSource σ] (P : Node → Host σ → Prop) (node : Node)
    (host : Host σ) : Prop :=
  ∀ path below, descend? path node = some below → P below (arrival path node host)

def IsQuotient : Node → Prop
  | operator symbol _ _ _ _ => symbol = ArithOp.divide.symbol
  | _ => False

def NothingRefused {σ : Type} [ScrollSource σ] (node : Node) (host : Host σ) : Prop :=
  node.Throughout (fun below arrived => below.fault? arrived ≠ some .nonFiniteQuotient) host

def QuotientsFinite {σ : Type} [ScrollSource σ] (node : Node) (host : Host σ) : Prop :=
  node.Throughout (fun below arrived => below.IsQuotient →
    (below.evaluate arrived).value.number.isFinite = true) host

/-- Trees built alike under the two policies. -/
def AcrossPolicies (m n : Node) : Prop :=
  m.Matches Eq (fun p q => p = .ieee ∧ q = .zero) n

/-- One tree refuses nothing exactly when all quotients of the other are finite, and then the two
have the same value at every place. -/
structure AgreeUnlessRefused {σ τ : Type} [ScrollSource σ] [ScrollSource τ] (m n : Node)
    (host : Host σ) (other : Host τ) : Prop where
  nothingRefused_iff : n.NothingRefused other ↔ m.QuotientsFinite host
  valueAt?_eq : n.NothingRefused other → ∀ path, m.valueAt? path host = n.valueAt? path other

/-- Two nodes that agree over all sources that behave identically, but for what comes of quotients
that are not finite. -/
structure AlikeUnlessRefused (m n : Node) : Prop where
  buildError?_eq : m.buildError? = n.buildError?
  isConstant_eq : m.isConstant = n.isConstant
  agree : ∀ (σ τ : Type) [ScrollSource σ] [ScrollSource τ] (host : Host σ) (other : Host τ),
    Alike host.source other.source → m.AgreeUnlessRefused n host other

section Throughout
variable {σ : Type} [ScrollSource σ] (P : Node → Host σ → Prop) (host : Host σ)

theorem throughout_operator (symbol : String) (left right : Node) (policy : DivisionPolicy)
    (memo : Memo Quantity) :
    (operator symbol left right policy memo).Throughout P host ↔
      P (operator symbol left right policy memo) host ∧ left.Throughout P host ∧
        right.Throughout P (left.evaluate host).host := by
  constructor
  · intro h
    exact ⟨h [] _ rfl, fun path => h (.left :: path), fun path => h (.right :: path)⟩
  · rintro ⟨hown, hleft, hright⟩ (_ | ⟨_ | _ | _, path⟩) below hpath
    · cases hpath
      exact hown
    · cases hpath
    · exact hleft path below hpath
    · exact hright path below hpath

theorem throughout_calculation (inner : Node) (memo : Memo Quantity) :
    (calculation inner memo).Throughout P host ↔
      P (calculation inner memo) host ∧ inner.Throughout P host := by
  constructor
  · intro h
    exact ⟨h [] _ rfl, fun path => h (.inner :: path)⟩
  · rintro ⟨hown, hinner⟩ (_ | ⟨_ | _ | _, path⟩) below hpath
    · cases hpath
      exact hown
    · exact hinner path below hpath
    · cases hpath
    · cases hpath

theorem throughout_of_childless {node : Node} (hnode : ∀ step, node.child? step = none)
    (h : P node host) : node.Throughout P host := by
  rintro (_ | ⟨step, path⟩) below hpath
  · cases hpath
    exact h
  · rw [descend?, hnode step] at hpath
    cases hpath

theorem nothingRefused_calculation (inner : Node) (memo : Memo Quantity) :
    (calculation inner memo).NothingRefused host ↔ inner.NothingRefused host :=
  (throughout_calculation _ host inner memo).trans (and_iff_right nofun)

theorem quotientsFinite_calculation (inner : Node) (memo : Memo Quantity) :
    (calculation inner memo).QuotientsFinite host ↔ inner.QuotientsFinite host :=
  (throughout_calculation _ host inner memo).trans (and_iff_right nofun)

end Throughout

section TwoRuns
variable {m n : Node} {σ τ : Type} [ScrollSource σ] [ScrollSource τ] {host : Host σ}
  {other : Host τ}

theorem value_environment_of_alike (h : Alike host.source other.source)
    (identifier : Option String) :
    ((environment identifier).evaluate host).value =
      ((environment identifier).evaluate other).value := by
  have hfirst : (ScrollSource.metrics host.source).1 = (ScrollSource.metrics other.source).1 := h 0
  simp only [evaluate, sample_eq, snapshot]
  split
  · simp only [hfirst]
  · rfl

theorem Matches.alike_evaluate {literals : Quantity → Quantity → Prop}
    {policies : DivisionPolicy → DivisionPolicy → Prop} (h : m.Matches literals policies n)
    (hm : m.Coherent) (hn : n.Coherent) (hsources : Alike host.source other.source) :
    Alike (m.evaluate host).host.source (n.evaluate other).host.source := by
  rw [hm.source_evaluate, hn.source_evaluate, h.snapshots_eq]
  exact hsources.skip n.snapshots

theorem fault?_operator (symbol : String) (left right : Node) (policy : DivisionPolicy)
    (memo : Memo Quantity) (host : Host σ) (fault : Fault) :
    (operator symbol left right policy memo).fault? host = some fault ↔
      Quantity.combine policy symbol (left.evaluate host).value
        (right.evaluate (left.evaluate host).host).value = .error fault := by
  rw [fault?, degradation?, Quantity.degradation?]
  cases Quantity.combine policy symbol (left.evaluate host).value
    (right.evaluate (left.evaluate host).host).value <;> simp

/-- An operator refuses its quotient exactly when the other one has a quotient that is not finite,
provided the operands agree. -/
theorem refused_operator_iff {symbol : String} {left left' right right' : Node}
    {memo memo' : Memo Quantity} (hm : (operator symbol left right .ieee memo).Coherent)
    (hleft : (left.evaluate host).value = (left'.evaluate other).value)
    (hright : (right.evaluate (left.evaluate host).host).value =
      (right'.evaluate (left'.evaluate other).host).value) :
    (operator symbol left' right' .zero memo').fault? other ≠ some .nonFiniteQuotient ↔
      ((operator symbol left right .ieee memo).IsQuotient →
        ((operator symbol left right .ieee memo).evaluate host).value.number.isFinite = true) := by
  rw [ne_eq, fault?_operator, Quantity.combine_zero_eq_error_iff, hm.value_operator, hleft, hright,
    not_and, Bool.not_eq_false]
  rfl

theorem agreeUnlessRefused_childless
    (hchild : ∀ step, m.child? step = none ∧ n.child? step = none) (hquotient : ¬ m.IsQuotient)
    (hfault : n.fault? other = none) (hvalue : (m.evaluate host).value = (n.evaluate other).value) :
    m.AgreeUnlessRefused n host other := by
  constructor
  · refine iff_of_true (throughout_of_childless _ other (fun step => (hchild step).2) ?_)
      (throughout_of_childless _ host (fun step => (hchild step).1) ?_)
    · rw [hfault]
      nofun
    · exact fun h => absurd h hquotient
  · rintro - (_ | ⟨step, path⟩)
    · exact congrArg some hvalue
    · rw [valueAt?, valueAt?, descend?, descend?, (hchild step).1, (hchild step).2]
      rfl

theorem agreeUnlessRefused_operator {symbol : String} {left left' right right' : Node}
    {memo memo' : Memo Quantity} (hm : (operator symbol left right .ieee memo).Coherent)
    (hn : (operator symbol left' right' .zero memo').Coherent)
    (hleft : left.AgreeUnlessRefused left' host other)
    (hright : right.AgreeUnlessRefused right' (left.evaluate host).host
      (left'.evaluate other).host) :
    (operator symbol left right .ieee memo).AgreeUnlessRefused
      (operator symbol left' right' .zero memo') host other := by
  have hoperands (hl : left'.NothingRefused other)
      (hr : right'.NothingRefused (left'.evaluate other).host) :
      (left.evaluate host).value = (left'.evaluate other).value ∧
        (right.evaluate (left.evaluate host).host).value =
          (right'.evaluate (left'.evaluate other).host).value :=
    ⟨Option.some.inj (hleft.valueAt?_eq hl []), Option.some.inj (hright.valueAt?_eq hr [])⟩
  constructor
  · refine (throughout_operator _ other _ _ _ _ _).trans
      (Iff.trans ?_ (throughout_operator _ host _ _ _ _ _).symm)
    -- The two conditions on the operator itself are compared only where the operands agree.
    refine Iff.trans (and_congr_left fun ⟨hl, hr⟩ => ?_)
      (and_congr_right fun _ => and_congr hleft.nothingRefused_iff hright.nothingRefused_iff)
    obtain ⟨hl, hr⟩ := hoperands hl hr
    exact refused_operator_iff hm hl hr
  · intro h path
    obtain ⟨hown, hl, hr⟩ := (throughout_operator _ other _ _ _ _ _).mp h
    rcases path with _ | ⟨_ | _ | _, path⟩
    · obtain ⟨hl, hr⟩ := hoperands hl hr
      rw [ne_eq, fault?_operator] at hown
      rw [valueAt?_nil, valueAt?_nil, hm.value_operator, hn.value_operator, hl, hr,
        Quantity.combineOrZero_zero_eq _ _ _ hown]
    · rfl
    · exact hleft.valueAt?_eq hl path
    · exact hright.valueAt?_eq hr path

theorem agreeUnlessRefused_calculation {inner inner' : Node} {memo memo' : Memo Quantity}
    (hm : (calculation inner memo).Coherent) (hn : (calculation inner' memo').Coherent)
    (hinner : inner.AgreeUnlessRefused inner' host other) :
    (calculation inner memo).AgreeUnlessRefused (calculation inner' memo') host other := by
  constructor
  · rw [nothingRefused_calculation, quotientsFinite_calculation, hinner.nothingRefused_iff]
  · intro h path
    rw [nothingRefused_calculation] at h
    rcases path with _ | ⟨_ | _ | _, path⟩
    · rw [valueAt?_nil, valueAt?_nil, hm.value_calculation, hn.value_calculation]
      exact hinner.valueAt?_eq h []
    · exact hinner.valueAt?_eq h path
    · rfl
    · rfl

theorem AcrossPolicies.agreeUnlessRefused (h : m.AcrossPolicies n) (hm : m.Coherent)
    (hn : n.Coherent) (hsources : Alike host.source other.source) :
    m.AgreeUnlessRefused n host other := by
  induction h generalizing host other with
  | literal hquantity =>
    exact agreeUnlessRefused_childless (fun step => by cases step <;> exact ⟨rfl, rfl⟩) nofun rfl
      hquantity
  | environment identifier =>
    exact agreeUnlessRefused_childless (fun step => by cases step <;> exact ⟨rfl, rfl⟩) nofun rfl
      (value_environment_of_alike hsources identifier)
  | operator symbol hl _ hpolicy _ ihl ihr =>
    obtain ⟨rfl, rfl⟩ := hpolicy
    exact agreeUnlessRefused_operator hm hn (ihl hm.1 hn.1 hsources)
      (ihr hm.2.1 hn.2.1 (hl.alike_evaluate hm.1 hn.1 hsources))
  | calculation _ _ ih => exact agreeUnlessRefused_calculation hm hn (ih hm.1 hn.1 hsources)
  | broken error _ =>
    refine agreeUnlessRefused_childless (fun step => by cases step <;> exact ⟨rfl, rfl⟩) nofun rfl
      ?_
    rw [(faithful_evaluate hm host).value_eq, (faithful_evaluate hn other).value_eq]
    rfl

theorem AcrossPolicies.alikeUnlessRefused (h : m.AcrossPolicies n) (hm : m.Coherent)
    (hn : n.Coherent) : m.AlikeUnlessRefused n where
  buildError?_eq := Matches.buildError?_eq h
  isConstant_eq := Matches.isConstant_eq h
  agree _ _ _ _ _ _ hsources := h.agreeUnlessRefused hm hn hsources

end TwoRuns

theorem acrossPolicies_ofTerm (term : Term) (log log' : Log) :
    (ofTerm .ieee term log).1.AcrossPolicies (ofTerm .zero term log').1 := by
  rw [ofTerm_fst, ofTerm_fst]
  refine matches_leaf ?_ rfl (term.matches_refl fun _ => rfl)
  exact ⟨rfl, rfl⟩

theorem value_environment {σ : Type} [ScrollSource σ] (identifier : Option String)
    (host : Host σ) :
    ((environment identifier).evaluate host).value.unit = none ∧
      (((environment identifier).evaluate host).value.number = 0 ∨
        ((environment identifier).evaluate host).value.number.isFinite = true) := by
  simp only [evaluate, sample_eq, snapshot]
  split
  · exact ⟨rfl, ScrollMetrics.fraction_eq_zero_or_isFinite _⟩
  · exact ⟨rfl, .inl rfl⟩

end Node

/-- The policies differ only where they must.  The trees of one term under the two policies are
built alike, and at every place and time, over sources that behave identically, they have the same
values all the way down unless the one tree refuses a quotient; it refuses none exactly when all
quotients of the other are finite.  Where quotients are refused, each is zero or finite, and
environment readings always are. -/
theorem division_policies_part_at_refusals :
    (∀ (term : Term) (log log' : Log),
      let m := (Node.ofTerm .ieee term log).1
      let n := (Node.ofTerm .zero term log').1
      m.AcrossPolicies n ∧
        ∀ now now' : Node, m.Later now → n.Later now' → ∀ start,
          Option.Rel Node.AlikeUnlessRefused (now.descend? start) (now'.descend? start)) ∧
    (∀ (node left right : Node) (memo : Memo Quantity), node.Reached →
      node.Contains (.operator "/" left right .zero memo) →
        ∀ (σ : Type) [ScrollSource σ] (host : Host σ),
          ((Node.operator "/" left right .zero memo).evaluate host).value = .zero ∨
            ((Node.operator "/" left right .zero memo).evaluate host).value.number.isFinite =
              true) ∧
    (∀ (σ : Type) [ScrollSource σ] (identifier : Option String) (host : Host σ),
      let value := ((Node.environment identifier).evaluate host).value
      value.unit = none ∧ (value.number = 0 ∨ value.number.isFinite = true)) := by
  refine ⟨?_, ?_, fun σ _ => Node.value_environment⟩
  · intro term log log' m n
    have hacross : m.AcrossPolicies n := Node.acrossPolicies_ofTerm term log log'
    refine ⟨hacross, fun now now' hnow hnow' start => ?_⟩
    exact Node.Matches.rel_descend hacross (.term .ieee term log) (.term .zero term log')
      Node.AcrossPolicies.alikeUnlessRefused hnow hnow' start
  · intro node left right memo h hbelow σ _ host
    obtain ⟨path, hpath⟩ := hbelow
    rw [(h.coherent.descend hpath).value_operator host]
    exact Quantity.combineOrZero_zero_divide _ _

/-- A length divided by the scroll progress, over two recordings of the same metrics. -/
theorem division_policies_part_at_refusals_scrolled :
    let term := Term.call "calc"
      [[.number ⟨6, some .centimetre⟩, .operator "/",
        .call "env" [[.identifier "window-scroll-y"]]]]
    let m := (Node.ofTerm .ieee term #[]).1
    let n := (Node.ofTerm .zero term #[]).1
    let host : Host Recording := ⟨⟨⟨50, 500, 100⟩, 0⟩, #[]⟩
    let other : Host Recording := ⟨⟨⟨50, 500, 100⟩, 7⟩, #[]⟩
    let quotient := Node.join .zero "/" (.literal ⟨6, some .centimetre⟩)
      (.environment (some "window-scroll-y"))
    Alike host.source other.source ∧ n.NothingRefused other ∧
      m.valueAt? [.inner] host = n.valueAt? [.inner] other ∧ n.Reached ∧ n.Contains quotient ∧
      ((quotient.evaluate other).value = .zero ∨
        (quotient.evaluate other).value.number.isFinite = true) := by
  intro term m n host other quotient
  obtain ⟨hpolicies, hquotients, -⟩ := division_policies_part_at_refusals
  have hsources : Alike host.source other.source := by
    intro k
    rw [nth, nth, ScrollSource.skip_recording, ScrollSource.skip_recording]
    rfl
  have hrefused : n.NothingRefused other := by
    refine (Node.nothingRefused_calculation _ _ _).mpr ?_
    refine (Node.throughout_operator _ _ _ _ _ _ _).mpr ⟨?_, ?_, ?_⟩
    · decide +kernel
    · exact Node.throughout_of_childless _ _ (fun step => by cases step <;> rfl)
        (Option.some_ne_none _).symm
    · exact Node.throughout_of_childless _ _ (fun step => by cases step <;> rfl)
        (Option.some_ne_none _).symm
  have hn : n.Reached := .term .zero term #[]
  have hbelow : n.Contains quotient := ⟨[.inner], rfl⟩
  refine ⟨hsources, hrefused, ?_, hn, hbelow, hquotients n _ _ _ hn hbelow Recording other⟩
  cases (hpolicies term #[] #[]).2 m n .now .now [] with
  | some halike => exact (halike.agree _ _ host other hsources).valueAt?_eq hrefused [.inner]

end LiveStyle
