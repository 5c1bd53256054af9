import Mathlib.Data.List.Forall2
import Mathlib.Data.List.TakeWhile
import LiveStyle.Text.Blank

/-! # Words up to case and surrounding white space

Trimming takes away what is white at both ends and nothing else, and it does not matter whether
letters are put in lower case before or after.  So a trimmed text in lower case is a given word
exactly when the text spells the word, in letters of any case, between white space.
-/
namespace LiveStyle.Text

/-- The characters differ at most in the case of an ASCII letter. -/
def SameLetter (c d : Char) : Prop :=
  c = d ∨ c.isUpper = true ∧ d.toNat = c.toNat + 32 ∨ d.isUpper = true ∧ c.toNat = d.toNat + 32

def Blank (text : List Char) : Prop := ∀ c ∈ text, isBlank c = true

/-- The word in letters of any case, with any white space around it. -/
def Spells (word text : String) : Prop :=
  ∃ before written after, text.toList = before ++ written ++ after ∧ Blank before ∧ Blank after ∧
    List.Forall₂ SameLetter written word.toList

section Letters

theorem isUpper_iff (c : Char) : c.isUpper = true ↔ 65 ≤ c.toNat ∧ c.toNat ≤ 90 := by
  change decide ('A'.val ≤ c.val ∧ c.val ≤ 'Z'.val) = true ↔ _
  simp [UInt32.le_iff_toNat_le, ← Char.toNat_val]

theorem isLower_iff (c : Char) : c.isLower = true ↔ 97 ≤ c.toNat ∧ c.toNat ≤ 122 := by
  change (decide ('a'.val ≤ c.val) && decide (c.val ≤ 'z'.val)) = true ↔ _
  simp [UInt32.le_iff_toNat_le, ← Char.toNat_val]

theorem isAlpha_iff (c : Char) : c.isAlpha = true ↔ c.isUpper = true ∨ c.isLower = true :=
  Bool.or_eq_true_iff

theorem toNat_toLower (c : Char) :
    c.toLower.toNat = if c.isUpper = true then c.toNat + 32 else c.toNat := by
  unfold Char.toLower
  split
  next h =>
    have hupper : c.isUpper = true := by
      simpa [isUpper_iff, UInt32.le_iff_toNat_le, ← Char.toNat_val] using h
    have hbound := (isUpper_iff c).mp hupper
    have hsum : (c.val + ('a'.val - 'A'.val)).toNat = c.val.toNat + 32 := by
      have hval : c.val.toNat ≤ 90 := hbound.2
      rw [UInt32.toNat_add]
      exact Nat.mod_eq_of_lt (by change c.val.toNat + 32 < 4294967296; omega)
    rw [if_pos hupper]
    exact hsum
  next h =>
    have hlower : ¬ c.isUpper = true := by
      simpa [isUpper_iff, UInt32.le_iff_toNat_le, ← Char.toNat_val] using h
    rw [if_neg hlower]

theorem toLower_eq_toLower_iff (c d : Char) : c.toLower = d.toLower ↔ SameLetter c d := by
  simp only [← Char.toNat_inj, toNat_toLower, SameLetter, isUpper_iff]
  grind

theorem toLower_of_isLower {c : Char} (h : c.isLower = true) : c.toLower = c := by
  have hbounds := (isLower_iff c).mp h
  have hupper : ¬ c.isUpper = true := by
    rw [isUpper_iff]
    omega
  rw [← Char.toNat_inj, toNat_toLower, if_neg hupper]

theorem map_toLower_eq_iff {written word : List Char} :
    written.map Char.toLower = word.map Char.toLower ↔ List.Forall₂ SameLetter written word := by
  rw [← List.forall₂_eq_eq_eq, List.forall₂_map_left_iff, List.forall₂_map_right_iff]
  simp only [toLower_eq_toLower_iff]

/-- No white space lies between the first and the last letter of ASCII. -/
theorem isBlank_of_bounds {c : Char} (hlow : 65 ≤ c.toNat) (hhigh : c.toNat ≤ 122) :
    isBlank c = false := by
  simp [isBlank, blankRanges]
  omega

theorem isBlank_of_isAlpha {c : Char} (h : c.isAlpha = true) : isBlank c = false := by
  rw [isAlpha_iff, isUpper_iff, isLower_iff] at h
  exact isBlank_of_bounds (by omega) (by omega)

theorem isBlank_toLower (c : Char) : isBlank c.toLower = isBlank c := by
  have htoLower := toNat_toLower c
  by_cases h : c.isUpper = true
  · have hbounds := (isUpper_iff c).mp h
    rw [if_pos h] at htoLower
    rw [isBlank_of_bounds (by omega) (by omega), isBlank_of_bounds (by omega) (by omega)]
  · rw [if_neg h, Char.toNat_inj] at htoLower
    rw [htoLower]

end Letters

section Trimming
variable {before text after : List Char}

theorem trim_append_of_blank_left (h : Blank before) : trim (before ++ text) = trim text := by
  rw [trim, trim, List.dropWhile_append_of_pos h]

theorem trim_append_of_blank_right (h : Blank after) : trim (text ++ after) = trim text := by
  have hreverse : ∀ c ∈ after.reverse, isBlank c = true := by simpa [Blank] using h
  rw [trim, trim, List.dropWhile_append]
  split
  next hempty =>
    rw [List.isEmpty_iff] at hempty
    rw [hempty, List.dropWhile_eq_nil_iff.mpr h]
  next => rw [List.reverse_append, List.dropWhile_append_of_pos hreverse]

theorem trim_of_not_blank (h : ∀ c ∈ text, isBlank c = false) : trim text = text := by
  have hself {cs : List Char} (hcs : ∀ c ∈ cs, isBlank c = false) : cs.dropWhile isBlank = cs := by
    cases cs with
    | nil => rfl
    | cons c cs => rw [List.dropWhile_cons_of_neg (by simp [hcs c])]
  rw [trim, hself h, hself (by simpa using h), List.reverse_reverse]

theorem exists_trim (text : List Char) :
    ∃ before after, text = before ++ trim text ++ after ∧ Blank before ∧ Blank after := by
  let rest := text.dropWhile isBlank
  have hrest : rest = trim text ++ (rest.reverse.takeWhile isBlank).reverse := by
    rw [trim, ← List.reverse_append, List.takeWhile_append_dropWhile, List.reverse_reverse]
  refine ⟨text.takeWhile isBlank, (rest.reverse.takeWhile isBlank).reverse, ?_, ?_, ?_⟩
  · rw [List.append_assoc, ← hrest, List.takeWhile_append_dropWhile]
  · exact fun c => List.mem_takeWhile_imp
  · exact fun c hc => List.mem_takeWhile_imp (List.mem_reverse.mp hc)

theorem trim_map_toLower (text : List Char) :
    trim (text.map Char.toLower) = (trim text).map Char.toLower := by
  have hblank : isBlank ∘ Char.toLower = isBlank := funext isBlank_toLower
  simp only [trim, List.dropWhile_map, ← List.map_reverse, hblank]

/-- What stands between white space decides what a trimmed text is. -/
theorem trim_surrounded (hbefore : Blank before) (hafter : Blank after) :
    trim (before ++ text ++ after) = trim text := by
  rw [trim_append_of_blank_right hafter, trim_append_of_blank_left hbefore]

end Trimming

section Spelling
variable {word text : String}

/-- In lower case and without the white space around it, a text is the word that it spells. -/
theorem map_toLower_trim_eq_iff (hword : ∀ c ∈ word.toList, c.isLower = true) :
    (trim text.toList).map Char.toLower = word.toList ↔ Spells word text := by
  have hlower : word.toList.map Char.toLower = word.toList :=
    (List.map_congr_left fun c hc => toLower_of_isLower (hword c hc)).trans (List.map_id _)
  constructor
  · intro h
    obtain ⟨before, after, htext, hbefore, hafter⟩ := exists_trim text.toList
    refine ⟨before, trim text.toList, after, htext, hbefore, hafter, ?_⟩
    rw [← map_toLower_eq_iff, h, hlower]
  · rintro ⟨before, written, after, htext, hbefore, hafter, hwritten⟩
    rw [← map_toLower_eq_iff, hlower] at hwritten
    have hletters : ∀ c ∈ word.toList, isBlank c = false := fun c hc =>
      isBlank_of_isAlpha ((isAlpha_iff c).mpr (.inr (hword c hc)))
    calc (trim text.toList).map Char.toLower
        = (trim written).map Char.toLower := by rw [htext, trim_surrounded hbefore hafter]
      _ = trim (written.map Char.toLower) := (trim_map_toLower written).symm
      _ = word.toList := by rw [hwritten, trim_of_not_blank hletters]

theorem map_toLower_trim_congr {before written after text' : List Char} {text : List Char}
    (htext : text' = before ++ written ++ after) (hbefore : Blank before) (hafter : Blank after)
    (hwritten : List.Forall₂ SameLetter written text) :
    (trim text').map Char.toLower = (trim text).map Char.toLower := by
  rw [htext, trim_surrounded hbefore hafter, ← trim_map_toLower, ← trim_map_toLower,
    map_toLower_eq_iff.mpr hwritten]

theorem isAlpha_of_isLower_toLower {c : Char} (h : c.toLower.isLower = true) :
    c.isAlpha = true := by
  rw [isAlpha_iff]
  by_cases hupper : c.isUpper = true
  · exact .inl hupper
  · have hself := toNat_toLower c
    rw [if_neg hupper, Char.toNat_inj] at hself
    exact .inr (hself ▸ h)

theorem isAlpha_of_mem {written word : List Char} (h : List.Forall₂ SameLetter written word)
    (hword : ∀ c ∈ word, c.isLower = true) {c : Char} (hc : c ∈ written) : c.isAlpha = true := by
  have hmem : c.toLower ∈ word.map Char.toLower :=
    map_toLower_eq_iff.mpr h ▸ List.mem_map_of_mem hc
  obtain ⟨d, hd, heq⟩ := List.mem_map.mp hmem
  rw [toLower_of_isLower (hword d hd)] at heq
  exact isAlpha_of_isLower_toLower (heq ▸ hword d hd)

/-- A text that spells a word has nothing but letters and the white space around them. -/
theorem Spells.isAlpha_or_isBlank (h : Spells word text)
    (hword : ∀ c ∈ word.toList, c.isLower = true) {c : Char} (hc : c ∈ text.toList) :
    c.isAlpha = true ∨ isBlank c = true := by
  obtain ⟨before, written, after, htext, hbefore, hafter, hwritten⟩ := h
  rw [htext, List.append_assoc, List.mem_append, List.mem_append] at hc
  rcases hc with hc | hc | hc
  · exact .inr (hbefore c hc)
  · exact .inl (isAlpha_of_mem hwritten hword hc)
  · exact .inr (hafter c hc)

/-- White space has nothing but white space in front of it or nothing but white space behind it. -/
theorem Spells.blank_or_blank (h : Spells word text) (hword : ∀ c ∈ word.toList, c.isLower = true)
    {front back : List Char} {c : Char} (htext : text.toList = front ++ c :: back)
    (hc : isBlank c = true) : Blank front ∨ Blank back := by
  obtain ⟨before, written, after, hsplit, hbefore, hafter, hwritten⟩ := h
  rw [hsplit, List.append_assoc, List.append_eq_append_iff] at htext
  rcases htext with ⟨rest, hfront, hrest⟩ | ⟨rest, rfl, hback⟩
  · right
    rcases List.append_eq_append_iff.mp hrest with ⟨more, -, rfl⟩ | ⟨more, rfl, hmore⟩
    · exact fun d hd => hafter d (by simp [hd])
    · cases more with
      | nil =>
        obtain rfl : c :: back = after := hmore
        exact fun d hd => hafter d (List.mem_cons_of_mem c hd)
      | cons first more =>
        obtain ⟨rfl, -⟩ := List.cons.inj hmore
        have hletter := isBlank_of_isAlpha (isAlpha_of_mem hwritten hword (c := c) (by simp))
        exact absurd hc (by simp [hletter])
  · exact .inl fun d hd => hbefore d (List.mem_append_left _ hd)

end Spelling
end LiveStyle.Text
