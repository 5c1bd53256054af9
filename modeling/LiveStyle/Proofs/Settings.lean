import LiveStyle.Proofs.Text.Spelling
import LiveStyle.Settings

/-! # The division setting

The one variable that is looked up selects a policy by its name, in letters of any case and with any
white space around it.  Any other text leaves the default and is reported as it stands.
-/
namespace LiveStyle
open Text (Blank SameLetter Spells isBlank)

theorem DivisionPolicy.ofName?_eq_some_iff {name : String} {policy : DivisionPolicy} :
    ofName? name = some policy ↔ name = policy.name := by
  constructor
  · intro h
    unfold ofName? at h
    split at h <;> cases h <;> rfl
  · rintro rfl
    exact ofName?_name policy

theorem DivisionPolicy.isLower_of_mem_name (policy : DivisionPolicy) :
    ∀ c ∈ policy.name.toList, c.isLower = true := by
  cases policy <;> simp [name]

namespace Settings

/-- The policies that a text can name are those that it spells. -/
theorem ofName?_plain_eq_some_iff {raw : String} {policy : DivisionPolicy} :
    DivisionPolicy.ofName? (plain raw) = some policy ↔ Spells policy.name raw := by
  rw [DivisionPolicy.ofName?_eq_some_iff, plain, ← Text.map_toLower_trim_eq_iff
    policy.isLower_of_mem_name, ← String.toList_inj, String.toList_ofList]

theorem ofName?_plain_eq_none_iff {raw : String} :
    DivisionPolicy.ofName? (plain raw) = none ↔ ∀ policy : DivisionPolicy, ¬ Spells policy.name raw := by
  simp [Option.eq_none_iff_forall_ne_some, ofName?_plain_eq_some_iff]

theorem policy_eq_of_spells {raw : String} {policy policy' : DivisionPolicy}
    (h : Spells policy.name raw) (h' : Spells policy'.name raw) : policy = policy' :=
  Option.some.inj ((ofName?_plain_eq_some_iff.mpr h).symm.trans (ofName?_plain_eq_some_iff.mpr h'))

inductive Selected (log : Log) : Option String → DivisionPolicy × Log → Prop
  | unset : Selected log none (.ieee, log)
  | named {raw : String} {policy : DivisionPolicy} : Spells policy.name raw →
      Selected log (some raw) (policy, log)
  | unknown {raw : String} : (∀ policy : DivisionPolicy, ¬ Spells policy.name raw) →
      Selected log (some raw) (.ieee, log.push (.unknownPolicy divisionVariable raw))

theorem selected_division (lookup : String → Option String) (log : Log) :
    Selected log (lookup divisionVariable) (division lookup log) := by
  unfold division
  cases lookup divisionVariable with
  | none => exact .unset
  | some raw =>
    dsimp only
    cases hname : DivisionPolicy.ofName? (plain raw) with
    | none => exact .unknown (ofName?_plain_eq_none_iff.mp hname)
    | some policy => exact .named (ofName?_plain_eq_some_iff.mp hname)

theorem push_ne (log : Log) (event : Event) : log.push event ≠ log := by
  intro h
  simpa using congrArg Array.size h

section Selected
variable {log : Log} {value : Option String} {chosen : DivisionPolicy × Log}

theorem Selected.fst_eq_zero_iff (h : Selected log value chosen) :
    chosen.1 = .zero ↔ ∃ raw, value = some raw ∧ Spells "zero" raw := by
  cases h with
  | unset => simp
  | @named raw policy hraw =>
    constructor
    · rintro rfl
      exact ⟨raw, rfl, hraw⟩
    · rintro ⟨_, ⟨⟩, hzero⟩
      have hname : Spells DivisionPolicy.zero.name raw := hzero
      exact policy_eq_of_spells hraw hname
  | unknown hraw =>
    refine iff_of_false nofun ?_
    rintro ⟨_, ⟨⟩, hzero⟩
    exact hraw .zero hzero

theorem Selected.snd_eq_push_iff (h : Selected log value chosen) {raw : String} :
    chosen.2 = log.push (.unknownPolicy divisionVariable raw) ↔
      value = some raw ∧ ∀ policy : DivisionPolicy, ¬ Spells policy.name raw := by
  cases h with
  | unset => exact iff_of_false (push_ne log _).symm nofun
  | @named found policy hfound =>
    refine iff_of_false (push_ne log _).symm ?_
    rintro ⟨⟨⟩, hraw⟩
    exact hraw policy hfound
  | @unknown found hfound =>
    constructor
    · intro h
      cases (Array.push_eq_push.mp h).1
      exact ⟨rfl, hfound⟩
    · rintro ⟨⟨⟩, -⟩
      rfl

theorem Selected.snd_eq_iff (h : Selected log value chosen) :
    chosen.2 = log ↔
      ∀ raw, value = some raw → ∃ policy : DivisionPolicy, Spells policy.name raw := by
  cases h with
  | unset => exact iff_of_true rfl nofun
  | @named found policy hfound =>
    refine iff_of_true rfl ?_
    rintro _ ⟨⟩
    exact ⟨policy, hfound⟩
  | @unknown found hfound =>
    refine iff_of_false (push_ne log _) fun h => ?_
    obtain ⟨policy, hpolicy⟩ := h found rfl
    exact hfound policy hpolicy

end Selected

/-- Texts that are plainly the same select the same, with a warning or without. -/
theorem division_congr_plain {lookup lookup' : String → Option String} {raw raw' : String}
    (h : lookup divisionVariable = some raw) (h' : lookup' divisionVariable = some raw')
    (hplain : plain raw' = plain raw) (log log' : Log) :
    (division lookup' log').1 = (division lookup log).1 ∧
      ((division lookup' log').2 = log' ↔ (division lookup log).2 = log) := by
  rw [division, division, h, h']
  dsimp only
  rw [hplain]
  cases DivisionPolicy.ofName? (plain raw) with
  | none => exact ⟨rfl, iff_of_false (push_ne log' _) (push_ne log _)⟩
  | some policy => exact ⟨rfl, iff_of_true rfl rfl⟩

theorem exists_spells_iff {raw : String} :
    (∃ policy : DivisionPolicy, Spells policy.name raw) ↔
      Spells "zero" raw ∨ Spells "ieee" raw := by
  constructor
  · rintro ⟨policy, h⟩
    cases policy with
    | ieee => exact .inr h
    | zero => exact .inl h
  · rintro (h | h)
    · exact ⟨.zero, h⟩
    · exact ⟨.ieee, h⟩

end Settings

/-- One variable decides on the policy.  Zero is selected by the texts that spell it, in letters of
any case and between any white space; there is a warning with the whole text if it spells no policy,
and no other.  More white space around a text and letters of another case change nothing, and within
a text that is accepted there are letters without a gap. -/
theorem division_setting_exact :
    (∀ (lookup : String → Option String) (log : Log),
      let chosen := Settings.division lookup log
      let value := lookup "STYLE_EVAL_DIVISION"
      (chosen.1 = .zero ↔ ∃ raw, value = some raw ∧ Spells "zero" raw) ∧
      (chosen.1 = .ieee ↔ ¬ ∃ raw, value = some raw ∧ Spells "zero" raw) ∧
      (∀ raw, chosen.2 = log.push (.unknownPolicy "STYLE_EVAL_DIVISION" raw) ↔
        value = some raw ∧ ¬ (Spells "zero" raw ∨ Spells "ieee" raw)) ∧
      (chosen.2 = log ↔ ∀ raw, value = some raw → Spells "zero" raw ∨ Spells "ieee" raw)) ∧
    (∀ raw : String,
      let warning := Event.unknownPolicy "STYLE_EVAL_DIVISION" raw
      warning.level = .warn ∧
        warning.fields = [("var", "STYLE_EVAL_DIVISION"), ("value", raw)]) ∧
    (∀ (lookup lookup' : String → Option String) (log log' : Log) (raw raw' : String)
      (before written after : List Char),
      lookup "STYLE_EVAL_DIVISION" = some raw → lookup' "STYLE_EVAL_DIVISION" = some raw' →
        raw'.toList = before ++ written ++ after → Blank before → Blank after →
          List.Forall₂ SameLetter written raw.toList →
            (Settings.division lookup' log').1 = (Settings.division lookup log).1 ∧
              ((Settings.division lookup' log').2 = log' ↔
                (Settings.division lookup log).2 = log)) ∧
    (∀ raw : String, Spells "zero" raw ∨ Spells "ieee" raw →
      (∀ c ∈ raw.toList, c.isAlpha = true ∨ isBlank c = true) ∧
        ∀ front c back, raw.toList = front ++ c :: back → isBlank c = true →
          Blank front ∨ Blank back) ∧
    ∀ lookup lookup' : String → Option String,
      lookup "STYLE_EVAL_DIVISION" = lookup' "STYLE_EVAL_DIVISION" →
        Settings.division lookup = Settings.division lookup' := by
  refine ⟨?_, fun raw => ⟨rfl, rfl⟩, ?_, ?_, ?_⟩
  · intro lookup log chosen value
    have h : Settings.Selected log value chosen := Settings.selected_division lookup log
    have hzero := h.fst_eq_zero_iff
    refine ⟨hzero, ?_, fun raw => ?_, ?_⟩
    · rw [← hzero]
      cases chosen.1 <;> simp
    · rw [← Settings.exists_spells_iff, not_exists]
      exact h.snd_eq_push_iff
    · simp only [← Settings.exists_spells_iff]
      exact h.snd_eq_iff
  · intro lookup lookup' log log' raw raw' before written after h h' hraw hbefore hafter hwritten
    refine Settings.division_congr_plain h h' ?_ log log'
    rw [Settings.plain, Settings.plain,
      Text.map_toLower_trim_congr hraw hbefore hafter hwritten]
  · intro raw h
    obtain ⟨policy, h⟩ := Settings.exists_spells_iff.mpr h
    have hname := policy.isLower_of_mem_name
    exact ⟨fun c => h.isAlpha_or_isBlank hname, fun front c back => h.blank_or_blank hname⟩
  · intro lookup lookup' h
    have hvalue : lookup Settings.divisionVariable = lookup' Settings.divisionVariable := h
    funext log
    rw [Settings.division, Settings.division, hvalue]

/-- In mixed case, between a no-break space and a tab, with other variables set to something else. -/
theorem division_setting_exact_spaced :
    let raw := "\u00a0ZeRo\t"
    let lookup : String → Option String := fun _ => some "zero"
    let lookup' : String → Option String := fun name =>
      if name = "STYLE_EVAL_DIVISION" then some raw else some "ieee"
    Spells "zero" raw ∧ (Settings.division lookup' #[]).1 = (Settings.division lookup #[]).1 ∧
      (Settings.division lookup' #[]).1 = .zero ∧ (Settings.division lookup' #[]).2 = #[] ∧
      (∀ c ∈ raw.toList, c.isAlpha = true ∨ isBlank c = true) ∧
      Settings.division lookup' = Settings.division fun _ => some raw := by
  intro raw lookup lookup'
  obtain ⟨hchosen, -, hrespelled, haccepted, hvariable⟩ := division_setting_exact
  have hraw : raw.toList = ['\u00a0'] ++ ['Z', 'e', 'R', 'o'] ++ ['\t'] := by decide
  have hbefore : Blank ['\u00a0'] := by simp [Blank, isBlank, Text.blankRanges]
  have hafter : Blank ['\t'] := by simp [Blank, isBlank, Text.blankRanges]
  have hwritten : List.Forall₂ SameLetter ['Z', 'e', 'R', 'o'] "zero".toList := by
    refine .cons (.inr (.inl ⟨rfl, rfl⟩)) (.cons (.inl rfl) (.cons ?_ (.cons (.inl rfl) .nil)))
    exact .inr (.inl ⟨rfl, rfl⟩)
  have hspells : Spells "zero" raw := ⟨_, _, _, hraw, hbefore, hafter, hwritten⟩
  have hlookup : lookup' "STYLE_EVAL_DIVISION" = some raw := rfl
  obtain ⟨hzero, -, -, hsilent⟩ := hchosen lookup' #[]
  refine ⟨hspells, ?_, hzero.mpr ⟨raw, hlookup, hspells⟩, hsilent.mpr ?_, ?_, ?_⟩
  · exact (hrespelled lookup lookup' #[] #[] "zero" raw _ _ _ rfl hlookup hraw hbefore hafter
      hwritten).1
  · rintro _ ⟨⟩
    exact .inl hspells
  · exact (haccepted raw (.inl hspells)).1
  · exact hvariable lookup' _ hlookup

end LiveStyle
