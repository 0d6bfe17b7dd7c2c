import Mathlib.Algebra.Group.Nat.Defs
import Rulebook.Number.Numeral
import Rulebook.Proofs.Sequence

/-! # Decimal digits

Writing a whole number in decimal and reading the digits give each other, and
the ASCII digits are the ten that writing uses.
-/

namespace Rulebook.Text

/-- The ASCII digits are those of the numbers below ten. -/
theorem exists_digitChar {c : Char} (h : isAsciiDigit c) : ∃ v : Fin 10, c = Nat.digitChar v := by
  simp only [isAsciiDigit, Bool.and_eq_true, decide_eq_true_eq] at h
  have hlow : 48 ≤ c.toNat := h.1
  have hhigh : c.toNat ≤ 57 := h.2
  refine ⟨⟨c.toNat - 48, by omega⟩, ?_⟩
  have hcases : ∀ v : Fin 10, Nat.digitChar v = Char.ofNat (v + 48) := by decide
  rw [hcases, Nat.sub_add_cancel hlow, Char.ofNat_toNat]

/-- What holds for the ten digits holds for every ASCII digit. -/
theorem forall_isAsciiDigit {p : Char → Prop} (h : ∀ v : Fin 10, p (Nat.digitChar v)) {c : Char}
    (hc : isAsciiDigit c) : p c := by
  obtain ⟨v, rfl⟩ := exists_digitChar hc
  exact h v

end Rulebook.Text

namespace Rulebook

open Text Numeral Decimal

/-! ## The digits of a number -/

/-- The point and the digits after it. -/
def pointText : Option (List Char) → List Char
  | none => []
  | some digits => '.' :: digits

theorem natOfDigits_eq (digits : List Char) : natOfDigits digits = Nat.ofDigitChars 10 digits 0 :=
  rfl

@[simp] theorem natOfDigits_digitsOf (n : Nat) : natOfDigits (digitsOf n) = n := by
  rw [natOfDigits_eq, digitsOf, Nat.ofDigitChars_ten_toDigits]

theorem natOfDigits_append (xs ys : List Char) :
    natOfDigits (xs ++ ys) = natOfDigits xs * 10 ^ ys.length + natOfDigits ys := by
  rw [natOfDigits_eq, Nat.ofDigitChars_append, Nat.ofDigitChars_eq_ofDigitChars_zero, Nat.mul_comm]
  rfl

@[simp] theorem natOfDigits_replicate_zero (n : Nat) : natOfDigits (List.replicate n '0') = 0 := by
  rw [natOfDigits_eq, Nat.ofDigitChars_replicate_zero, Nat.mul_zero]

@[simp] theorem digitsOf_ne_nil (n : Nat) : digitsOf n ≠ [] := Nat.toDigits_ne_nil

theorem isAsciiDigit_of_mem_digitsOf {n : Nat} : ∀ c ∈ digitsOf n, isAsciiDigit c := by
  intro c hc
  have hdigit := Nat.isDigit_of_mem_toDigits (by omega) (Nat.le_refl 10) hc
  rw [Char.isDigit, Bool.and_eq_true, decide_eq_true_eq, decide_eq_true_eq] at hdigit
  rw [isAsciiDigit, Bool.and_eq_true, decide_eq_true_eq, decide_eq_true_eq]
  exact hdigit

theorem isAsciiDigit_of_mem_zeros {k : Nat} : ∀ c ∈ List.replicate k '0', isAsciiDigit c := by
  intro c hc
  rw [List.eq_of_mem_replicate hc]
  decide

/-- Zeros on the left are digits that do not count. -/
theorem isAsciiDigit_of_mem_padded {k n : Nat} :
    ∀ c ∈ List.replicate k '0' ++ digitsOf n, isAsciiDigit c := by
  intro c hc
  rcases List.mem_append.mp hc with hzero | hdigit
  · exact isAsciiDigit_of_mem_zeros c hzero
  · exact isAsciiDigit_of_mem_digitsOf c hdigit

theorem natOfDigits_padded (k n : Nat) :
    natOfDigits (List.replicate k '0' ++ digitsOf n) = n := by
  rw [natOfDigits_append, natOfDigits_replicate_zero, natOfDigits_digitsOf, Nat.zero_mul,
    Nat.zero_add]

/-- The first digit of a positive number is not a zero. -/
theorem head?_digitsOf_ne_zero {n : Nat} (h : 0 < n) : (digitsOf n).head? ≠ some '0' := by
  induction n using Nat.strongRecOn with
  | ind n ih =>
      rw [digitsOf, Nat.toDigits_eq_if (by omega)]
      split
      · next hlt =>
          have hdigits : ∀ v : Fin 10, 0 < v.val → (Nat.digitChar v) ≠ '0' := by decide
          simpa using hdigits ⟨n, hlt⟩ h
      · next hle =>
          have htenth : (Nat.toDigits 10 (n / 10)).head? ≠ some '0' :=
            ih (n / 10) (by omega) (by omega)
          obtain ⟨d, more, hmore⟩ :=
            List.exists_cons_of_ne_nil (Nat.toDigits_ne_nil : Nat.toDigits 10 (n / 10) ≠ [])
          rw [hmore] at htenth ⊢
          exact htenth

theorem natOfDigits_lt {digits : List Char} (h : ∀ c ∈ digits, isAsciiDigit c) :
    natOfDigits digits < 10 ^ digits.length := by
  induction digits with
  | nil => decide
  | cons c more ih =>
      obtain ⟨hc, hmore⟩ := List.forall_mem_cons.mp h
      have hdigit : natOfDigits [c] + 1 ≤ 10 :=
        forall_isAsciiDigit (p := fun c => natOfDigits [c] + 1 ≤ 10) (by decide) hc
      calc natOfDigits ([c] ++ more)
          = natOfDigits [c] * 10 ^ more.length + natOfDigits more := natOfDigits_append [c] more
        _ < natOfDigits [c] * 10 ^ more.length + 10 ^ more.length := Nat.add_lt_add_left (ih hmore) _
        _ = (natOfDigits [c] + 1) * 10 ^ more.length := (Nat.succ_mul _ _).symm
        _ ≤ 10 * 10 ^ more.length := Nat.mul_le_mul_right _ hdigit
        _ = 10 ^ (c :: more).length := by rw [List.length_cons, Nat.pow_succ, Nat.mul_comm]

/-- Digits in writing are at least as many as the number that they spell has. -/
theorem length_digitsOf_natOfDigits_le {digits : List Char} (h : ∀ c ∈ digits, isAsciiDigit c)
    (hne : digits ≠ []) : (digitsOf (natOfDigits digits)).length ≤ digits.length := by
  rw [digitsOf, Nat.length_toDigits_le_iff (by omega) (List.length_pos_iff.mpr hne)]
  exact natOfDigits_lt h

end Rulebook
