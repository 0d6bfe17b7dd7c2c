import Mathlib
import Rulebook.Pattern.Basic
import Rulebook.Proofs.Text.CaseFold

/-! # What sets hold

Under any flags it is mutual that one character counts as another one, and the digits are among the
word characters.
-/

namespace Rulebook.Pattern

variable {flags : Flags} {c d : Char}

/-- What counts as a character where case does not count: what has the same folding as it, or
differs from it in the dot. -/
theorem mem_variants_of_ignoreCase (hcase : flags.ignoreCase = true)
    (hascii : flags.ascii = false) : d ∈ variants flags c ↔ d.toNat ∈ Text.caseVariants c.toNat := by
  rw [variants, if_pos hcase, if_neg (by simp [hascii]), List.mem_cons, List.mem_map]
  constructor
  · rintro (rfl | ⟨m, hm, rfl⟩)
    · exact Text.mem_caseVariants.mpr (.inl rfl)
    · have hvalid : c.toNat.isValidChar := c.valid
      rwa [Char.toNat_ofNat, if_pos (Text.isValidChar_of_mem_caseVariants hvalid hm)]
  · exact fun h => .inr ⟨d.toNat, h, Char.ofNat_toNat d⟩

theorem toLower_eq_self_or_toUpper_eq_self (c : Char) : c.toLower = c ∨ c.toUpper = c := by
  by_cases hupper : c.isUpper
  · exact .inr (Char.toUpper_eq_of_not_isLower (Char.not_isLower_of_isUpper hupper))
  · exact .inl (Char.toLower_eq_of_not_isUpper hupper)

/-- A letter of ASCII is one of the two forms of another one exactly if this is one of its forms. -/
theorem mem_cases_of_mem_cases (h : d ∈ [c, c.toLower, c.toUpper]) :
    c ∈ [d, d.toLower, d.toUpper] := by
  simp only [List.mem_cons, List.not_mem_nil, or_false] at h ⊢
  obtain rfl | rfl | rfl := h
  · exact .inl rfl
  · rw [Char.toUpper_toLower_eq_toUpper]
    obtain hself | hself := toLower_eq_self_or_toUpper_eq_self c
    · exact .inl hself.symm
    · exact .inr (.inr hself.symm)
  · rw [Char.toLower_toUpper_eq_toLower]
    obtain hself | hself := toLower_eq_self_or_toUpper_eq_self c
    · exact .inr (.inl hself.symm)
    · exact .inl hself.symm

/-- That one character counts as another one is mutual. -/
theorem mem_variants_comm : d ∈ variants flags c ↔ c ∈ variants flags d := by
  cases hcase : flags.ignoreCase with
  | false => simp [variants, hcase, eq_comm]
  | true =>
    cases hascii : flags.ascii with
    | false =>
      rw [mem_variants_of_ignoreCase hcase hascii, mem_variants_of_ignoreCase hcase hascii,
        Text.mem_caseVariants_comm]
    | true =>
      simp only [variants, hcase, hascii, if_true]
      exact ⟨mem_cases_of_mem_cases, mem_cases_of_mem_cases⟩

/-- The set of one character holds what counts as this character. -/
theorem has_single : (CharSet.single c).has flags d = true ↔ c ∈ variants flags d := by
  have hself : ∀ v : Char, (c ≤ v ∧ v ≤ c) ↔ v = c := fun v => le_antisymm_iff.symm.trans eq_comm
  simp [CharSet.has, CharSet.single, Member.has, hself]

/-- Every digit is a word character. -/
theorem has_word_of_has_digit (h : CharClass.digit.has flags c = true) :
    CharClass.word.has flags c = true := by
  simp only [CharClass.has, Bool.and_eq_true] at h ⊢
  exact ⟨h.1, Text.isWordCharacter_of_isDecimalDigit h.2⟩

end Rulebook.Pattern
