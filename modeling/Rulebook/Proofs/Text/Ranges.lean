import Mathlib
import Rulebook.Text.Printable
import Rulebook.Text.WordCharacter

/-! # Membership in ranges

Halving finds whether a code point lies in one of some ascending ranges. The runs of word
characters ascend, and so do those of printable ones, so the tables say of every code point what
halving finds. All decimal digits are word characters.
-/

namespace Rulebook.Text

variable {ranges : Array (Nat × Nat)} {n : Nat}

/-- A range that is not empty and ends before another, which is not empty either. -/
def Precedes (r s : Nat × Nat) : Prop := r.1 ≤ r.2 ∧ r.2 < s.1 ∧ s.1 ≤ s.2

instance (r s : Nat × Nat) : Decidable (Precedes r s) := inferInstanceAs (Decidable (_ ∧ _ ∧ _))

instance : Trans Precedes Precedes Precedes where
  trans h h' := ⟨h.1, by have := h.2; have := h'.2; unfold Precedes at *; omega, h'.2.2⟩

/-- Whether ranges ascend. -/
def IsAscending (ranges : Array (Nat × Nat)) : Prop := ranges.toList.IsChain Precedes

instance (ranges : Array (Nat × Nat)) : Decidable (IsAscending ranges) :=
  inferInstanceAs (Decidable (List.IsChain _ _))

theorem IsAscending.precedes (ascending : IsAscending ranges) {i j : Nat} {r s : Nat × Nat}
    (hi : ranges[i]? = some r) (hj : ranges[j]? = some s) (h : i < j) : Precedes r s := by
  have hpairwise := List.isChain_iff_pairwise.mp ascending
  obtain ⟨hisize, rfl⟩ := Array.getElem?_eq_some_iff.mp hi
  obtain ⟨hjsize, rfl⟩ := Array.getElem?_eq_some_iff.mp hj
  exact List.pairwise_iff_getElem.mp hpairwise i j hisize hjsize h

/-- Halving finds a range that holds a code point between two indices if there is one. -/
theorem inRangesBetween_iff (ascending : IsAscending ranges) {low high : Nat}
    (hhigh : high ≤ ranges.size) :
    inRangesBetween ranges n low high = true ↔
      ∃ i r, low ≤ i ∧ i < high ∧ ranges[i]? = some r ∧ r.1 ≤ n ∧ n ≤ r.2 := by
  fun_induction inRangesBetween ranges n low high with
  | case1 low high hless middle hnone =>
    rw [Array.getElem?_eq_none_iff] at hnone
    omega
  | case2 low high hless middle first last hmiddle hbefore ih =>
    rw [ih (by omega)]
    refine ⟨fun ⟨i, r, hlow, hi, hr⟩ => ⟨i, r, hlow, by omega, hr⟩,
      fun ⟨i, r, hlow, hi, hr, hin⟩ => ⟨i, r, hlow, ?_, hr, hin⟩⟩
    -- A range at the middle or behind it starts behind the code point.
    by_contra hmi
    rcases Nat.lt_or_eq_of_le (Nat.le_of_not_lt hmi) with hlt | rfl
    · have := ascending.precedes hmiddle hr hlt
      unfold Precedes at this
      omega
    · obtain rfl : (first, last) = r := by simpa [hmiddle] using hr
      omega
  | case3 low high hless middle first last hmiddle hbefore hbehind ih =>
    rw [ih (by omega)]
    refine ⟨fun ⟨i, r, hlow, hi, hr⟩ => ⟨i, r, by omega, hi, hr⟩,
      fun ⟨i, r, hlow, hi, hr, hin⟩ => ⟨i, r, ?_, hi, hr, hin⟩⟩
    -- A range at the middle or in front of it ends before the code point.
    by_contra hmi
    rcases Nat.lt_or_eq_of_le (Nat.le_of_lt_succ (Nat.lt_of_not_le hmi)) with hlt | rfl
    · have := ascending.precedes hr hmiddle hlt
      unfold Precedes at this
      omega
    · obtain rfl : (first, last) = r := by simpa [hmiddle] using hr
      omega
  | case4 low high hless middle first last hmiddle hbefore hbehind =>
    exact iff_of_true rfl ⟨middle, (first, last), by omega, by omega, hmiddle, by omega, by omega⟩
  | case5 low high hless =>
    exact iff_of_false Bool.false_ne_true fun ⟨i, r, hlow, hi, _⟩ => by omega

/-- A code point is found in ascending ranges exactly if one of them holds it. -/
theorem inRanges_iff (ascending : IsAscending ranges) :
    inRanges ranges n = true ↔ ∃ r ∈ ranges, r.1 ≤ n ∧ n ≤ r.2 := by
  rw [inRanges, inRangesBetween_iff ascending (Nat.le_refl _)]
  constructor
  · rintro ⟨i, r, -, -, hr, hin⟩
    exact ⟨r, Array.mem_of_getElem? hr, hin⟩
  · rintro ⟨r, hr, hin⟩
    obtain ⟨i, hi, rfl⟩ := Array.mem_iff_getElem.mp hr
    exact ⟨i, ranges[i], Nat.zero_le i, hi, Array.getElem?_eq_getElem hi, hin⟩

/-- If nothing is left of some elements after each of some sets has taken off those at their head
that it holds, each of them is held by one. -/
theorem exists_of_foldl_dropWhile {α β : Type} {holds : α → β → Bool} {sets : List α} {xs : List β}
    (h : sets.foldl (fun left set => left.dropWhile (holds set)) xs = []) :
    ∀ x ∈ xs, ∃ set ∈ sets, holds set x = true := by
  induction sets generalizing xs with
  | nil =>
    obtain rfl : xs = [] := h
    exact fun x hx => absurd hx List.not_mem_nil
  | cons set rest ih =>
    intro x hx
    rw [← List.takeWhile_append_dropWhile (p := holds set) (l := xs), List.mem_append] at hx
    obtain htaken | hleft := hx
    · exact ⟨set, List.mem_cons_self, List.mem_takeWhile_imp htaken⟩
    · obtain ⟨other, hother, hholds⟩ := ih h x hleft
      exact ⟨other, List.mem_cons_of_mem _ hother, hholds⟩

/-! ## Tables -/

-- The tables are long, and what they say is read off element by element.
set_option maxRecDepth 16000

theorem isAscending_wordRanges : IsAscending wordRanges := by decide

theorem isAscending_printableRanges : IsAscending printableRanges := by decide

/-- The ASCII characters among the word characters are the digits, the letters and the
underscore. -/
theorem mem_wordRanges_of_ascii : ∀ r ∈ wordRanges.toList, r.1 < 128 →
    r ∈ [(0x30, 0x39), (0x41, 0x5a), (0x5f, 0x5f), (0x61, 0x7a)] := by
  decide

theorem asciiRanges_subset_wordRanges :
    [(0x30, 0x39), (0x41, 0x5a), (0x5f, 0x5f), (0x61, 0x7a)] ⊆ wordRanges.toList := by
  decide

theorem isAlphanum_iff (c : Char) : c.isAlphanum = true ↔
    48 ≤ c.toNat ∧ c.toNat ≤ 57 ∨ 65 ≤ c.toNat ∧ c.toNat ≤ 90 ∨ 97 ≤ c.toNat ∧ c.toNat ≤ 122 := by
  simp only [Char.isAlphanum, Char.isAlpha, Char.isUpper, Char.isLower, Char.isDigit,
    Bool.or_eq_true, Bool.and_eq_true, decide_eq_true_eq, ge_iff_le, UInt32.le_iff_toNat_le]
  change ((65 ≤ c.toNat ∧ c.toNat ≤ 90) ∨ 97 ≤ c.toNat ∧ c.toNat ≤ 122) ∨
    48 ≤ c.toNat ∧ c.toNat ≤ 57 ↔ _
  omega

/-- A character stands in words exactly if its code point lies in a run of the table. -/
theorem isWordCharacter_iff (c : Char) :
    isWordCharacter c = true ↔ ∃ r ∈ wordRanges, r.1 ≤ c.toNat ∧ c.toNat ≤ r.2 := by
  unfold isWordCharacter
  split
  · rename_i hascii
    -- No table is read below 128; the four runs there are what the shortcut tests for.
    have hshort : (c.isAlphanum || c == '_') = true ↔
        ∃ r ∈ [(0x30, 0x39), (0x41, 0x5a), (0x5f, 0x5f), (0x61, 0x7a)],
          r.1 ≤ c.toNat ∧ c.toNat ≤ r.2 := by
      have hunderscore : c = '_' ↔ c.toNat = 95 := by rw [← Char.toNat_inj]; rfl
      simp only [Bool.or_eq_true, isAlphanum_iff, beq_iff_eq, hunderscore, List.mem_cons,
        List.not_mem_nil, or_false, exists_eq_or_imp, exists_eq_left]
      omega
    rw [hshort]
    constructor
    · rintro ⟨r, hr, hin⟩
      exact ⟨r, Array.mem_toList_iff.mp (asciiRanges_subset_wordRanges hr), hin⟩
    · rintro ⟨r, hr, hin⟩
      exact ⟨r, mem_wordRanges_of_ascii r (Array.mem_toList_iff.mpr hr) (by omega), hin⟩
  · exact inRanges_iff isAscending_wordRanges

/-- A character stands for itself exactly if its code point lies in a run of the table. -/
theorem isPrintable_iff (c : Char) :
    isPrintable c = true ↔ ∃ r ∈ printableRanges, r.1 ≤ c.toNat ∧ c.toNat ≤ r.2 := by
  unfold isPrintable
  split
  · rename_i hascii
    have hfirst : (0x20, 0x7e) ∈ printableRanges.toList ∧
        ∀ r ∈ printableRanges.toList, r.1 < 127 → r = (0x20, 0x7e) := by
      decide
    rw [decide_eq_true_eq]
    constructor
    · exact fun h => ⟨_, Array.mem_toList_iff.mp hfirst.1, h, by omega⟩
    · rintro ⟨r, hr, hlow, -⟩
      obtain rfl := hfirst.2 r (Array.mem_toList_iff.mpr hr) (by omega)
      exact hlow
  · exact inRanges_iff isAscending_printableRanges

/-- Every row of ten digits lies in one run of word characters. -/
theorem exists_wordRange_of_mem_zeros {base : Nat}
    (h : base ∈ decimalZeros ++ laterDecimalZeros) :
    ∃ r ∈ wordRanges, r.1 ≤ base ∧ base + 9 ≤ r.2 := by
  -- The rows ascend as the runs do, so one walk along the runs meets all of them.
  let holds (r : Nat × Nat) (base : Nat) : Bool := Nat.ble r.1 base && Nat.ble (base + 9) r.2
  have hrows : ∀ bases ∈ [decimalZeros, laterDecimalZeros],
      wordRanges.toList.foldl (fun left r => left.dropWhile (holds r)) bases = [] := by
    decide
  obtain ⟨r, hr, hin⟩ : ∃ r ∈ wordRanges.toList, holds r base = true := by
    obtain hbase | hbase := List.mem_append.mp h
    · exact exists_of_foldl_dropWhile (hrows _ (by simp)) base hbase
    · exact exists_of_foldl_dropWhile (hrows _ (by simp)) base hbase
  exact ⟨r, Array.mem_toList_iff.mp hr, by simpa [holds] using hin⟩

/-- Every decimal digit is a word character. -/
theorem isWordCharacter_of_isDecimalDigit {c : Char} (h : isDecimalDigit c = true) :
    isWordCharacter c = true := by
  have hrow : ∃ base ∈ decimalZeros ++ laterDecimalZeros,
      base ≤ c.toNat ∧ c.toNat < base + 10 := by
    simp only [isDecimalDigit, decimalValue?, Bool.or_eq_true, Option.isSome_map,
      List.find?_isSome, List.any_eq_true, Bool.and_eq_true, decide_eq_true_eq] at h
    rcases h with ⟨base, hbase, hc⟩ | ⟨base, hbase, hc⟩
    · exact ⟨base, List.mem_append_left _ hbase, hc⟩
    · exact ⟨base, List.mem_append_right _ hbase, hc⟩
  obtain ⟨base, hbase, hlow, hhigh⟩ := hrow
  obtain ⟨r, hr, hfirst, hlast⟩ := exists_wordRange_of_mem_zeros hbase
  exact (isWordCharacter_iff c).mpr ⟨r, hr, by omega, by omega⟩

end Rulebook.Text
