import Mathlib.Tactic.Positivity
import Rulebook.Number.Decimal
import Rulebook.Proofs.Number.Rounding

/-! # Decimals that read back

A decimal is read as the number nearest to its value, however the value is split
into digits and a power of ten. So trailing zeros do not matter, and the
shortest decimal of a number of the format reads back as that number.
-/

namespace Rulebook

open Double

namespace Double

/-- The value of a decimal as a numerator and a denominator. -/
def decimalRatio (digits : Nat) (power : Int) : Nat × Nat :=
  if 0 ≤ power then (digits * Nat.pow 10 power.toNat, 1) else (digits, Nat.pow 10 (-power).toNat)

theorem decimalRatio_pos (digits : Nat) (power : Int) : 0 < (decimalRatio digits power).2 := by
  unfold decimalRatio
  split
  · exact Nat.one_pos
  · exact Nat.pow_pos (by omega)

theorem decimalRatio_fst_pos {digits : Nat} (h : 0 < digits) (power : Int) :
    0 < (decimalRatio digits power).1 := by
  unfold decimalRatio
  split
  · exact Nat.mul_pos h (Nat.pow_pos (by omega))
  · exact h

theorem decimalRatio_value (digits : Nat) (power : Int) :
    ((decimalRatio digits power).1 : ℚ) / (decimalRatio digits power).2 = digits * 10 ^ power := by
  unfold decimalRatio
  split
  · next hpower =>
      obtain ⟨k, rfl⟩ := Int.eq_ofNat_of_zero_le hpower
      rw [Int.toNat_natCast, Nat.cast_mul, cast_natPow, Nat.cast_ofNat, zpow_natCast, Nat.cast_one,
        div_one]
  · next hpower =>
      obtain ⟨k, hk⟩ := Int.eq_ofNat_of_zero_le (show 0 ≤ -power by omega)
      obtain rfl : power = -(k : Int) := by omega
      rw [neg_neg, Int.toNat_natCast, cast_natPow, Nat.cast_ofNat, zpow_neg, zpow_natCast,
        div_eq_mul_inv]

theorem two_zpow_le_ten_zpow {power : Int} (h : 0 ≤ power) :
    (2 : ℚ) ^ (3 * power) ≤ 10 ^ power := by
  obtain ⟨k, rfl⟩ := Int.eq_ofNat_of_zero_le h
  rw [zpow_mul, zpow_natCast, zpow_natCast]
  exact pow_le_pow_left₀ (by norm_num) (by norm_num) k

theorem ten_zpow_le_two_zpow {power : Int} (h : power ≤ 0) :
    (10 : ℚ) ^ power ≤ 2 ^ (3 * power) := by
  have hneg := two_zpow_le_ten_zpow (show 0 ≤ -power by omega)
  rw [zpow_neg, Int.mul_neg, zpow_neg] at hneg
  exact (inv_le_inv₀ (zpow_pos (by norm_num) _) (zpow_pos (by norm_num) _)).mp hneg

/-- The shortcuts for far powers give what rounding would. -/
theorem ofDecimal_eq_ofRatio {digits : Nat} (h : 0 < digits) (power : Int) (negative : Bool) :
    ofDecimal negative digits power =
      ofRatio negative (decimalRatio digits power).1 (decimalRatio digits power).2 := by
  have hnum := decimalRatio_fst_pos h power
  have hden := decimalRatio_pos digits power
  have hvalue := decimalRatio_value digits power
  obtain ⟨hlog_le, hlog_lt⟩ := log2_bounds h
  have htwo : (0 : ℚ) < 2 := by norm_num
  unfold ofDecimal
  rw [if_neg h.ne']
  simp only
  -- Eight instead of ten bounds the power from the side that each shortcut needs.
  split
  · next hlarge =>
      rw [Bool.and_eq_true, decide_eq_true_eq, decide_eq_true_eq] at hlarge
      refine (ofRatio_of_large hnum hden ?_ negative).symm
      rw [hvalue]
      calc (2 : ℚ) ^ (1100 : Int)
          ≤ 2 ^ ((digits.log2 : Int) + 3 * power) := zpow_le_zpow_right₀ (by norm_num) (by omega)
        _ = 2 ^ (digits.log2 : Int) * 2 ^ (3 * power) := zpow_add₀ htwo.ne' _ _
        _ ≤ digits * 10 ^ power :=
            mul_le_mul hlog_le (two_zpow_le_ten_zpow hlarge.2) (zpow_pos htwo _).le
              (Nat.cast_nonneg _)
  split
  · next hsmall =>
      rw [Bool.and_eq_true, decide_eq_true_eq, decide_eq_true_eq] at hsmall
      refine (ofRatio_of_small hnum hden ?_ negative).symm
      rw [hvalue]
      calc (digits : ℚ) * 10 ^ power
          < 2 ^ ((digits.log2 : Int) + 1) * 2 ^ (3 * power) :=
            mul_lt_mul hlog_lt (ten_zpow_le_two_zpow hsmall.2.le) (zpow_pos (by norm_num) _)
              (zpow_pos htwo _).le
        _ = 2 ^ ((digits.log2 : Int) + 1 + 3 * power) := (zpow_add₀ htwo.ne' _ _).symm
        _ ≤ 2 ^ (-1100 : Int) := zpow_le_zpow_right₀ (by norm_num) (by omega)
  · unfold decimalRatio
    split <;> rfl

/-- Decimals of one value are read as the same number. -/
theorem ofDecimal_congr {digits digits' : Nat} {power power' : Int} (h : 0 < digits)
    (h' : 0 < digits') (hvalue : (digits : ℚ) * 10 ^ power = digits' * 10 ^ power')
    (negative : Bool) : ofDecimal negative digits power = ofDecimal negative digits' power' := by
  rw [ofDecimal_eq_ofRatio h, ofDecimal_eq_ofRatio h']
  refine ofRatio_congr (decimalRatio_pos _ _) (decimalRatio_pos _ _) ?_ negative
  rw [decimalRatio_value, decimalRatio_value, hvalue]

/-- What a decimal is read as is a number of the format. -/
theorem isNumber_ofDecimal (negative : Bool) (digits : Nat) (power : Int) :
    (ofDecimal negative digits power).IsNumber := by
  rcases Nat.eq_zero_or_pos digits with rfl | hdigits
  · rw [ofDecimal, if_pos rfl]
    exact isNumber_zero negative
  · rw [ofDecimal_eq_ofRatio hdigits]
    exact isNumber_ofRatio _ (decimalRatio_pos _ _) negative

/-- The same number with another sign. -/
def withSign (negative : Bool) : Double → Double
  | .finite _ m q => .finite negative m q
  | .infinity _ => .infinity negative
  | x => x

theorem withSign_ofSignificand (negative : Bool) (m : Nat) (q : Int) :
    withSign negative (ofSignificand false m q) = ofSignificand negative m q := by
  unfold ofSignificand
  by_cases hm : m < significandBound
  · simp only [if_pos hm]
    split <;> rfl
  · simp only [if_neg hm]
    split <;> rfl

theorem withSign_ofDecimal {digits : Nat} (h : 0 < digits) (power : Int) (negative : Bool) :
    withSign negative (ofDecimal false digits power) = ofDecimal negative digits power := by
  have hnum := decimalRatio_fst_pos h power
  rw [ofDecimal_eq_ofRatio h, ofDecimal_eq_ofRatio h, ofRatio_eq hnum, ofRatio_eq hnum,
    withSign_ofSignificand]

end Double

namespace Decimal

/-- A decimal that is read as a given finite number other than zero. -/
structure ReadsAs (x : Decimal) (m : Nat) (q : Int) : Prop where
  pos : 0 < x.digits
  value : ∀ negative, ofDecimal negative x.digits x.power = .finite negative m q

theorem readsAs_of_toDouble {x : Decimal} {m : Nat} {q : Int} (hm : 0 < m)
    (h : x.toDouble false = .finite false m q) : ReadsAs x m q := by
  have hpos : 0 < x.digits := by
    rcases Nat.eq_zero_or_pos x.digits with hzero | hpos
    · rw [toDouble, ofDecimal, if_pos hzero, zero, Double.finite.injEq] at h
      exact absurd h.2.1 hm.ne
    · exact hpos
  refine ⟨hpos, fun negative => ?_⟩
  rw [toDouble] at h
  rw [← withSign_ofDecimal hpos, h]
  rfl

/-- Trailing zeros do not matter. -/
theorem readsAs_trim (fuel : Nat) {x : Decimal} {m : Nat} {q : Int} (h : ReadsAs x m q) :
    ReadsAs (x.trim fuel) m q := by
  induction fuel generalizing x with
  | zero => exact h
  | succ fuel ih =>
      rw [trim]
      split
      · next htrailing =>
          rw [Bool.and_eq_true, decide_eq_true_eq, decide_eq_true_eq] at htrailing
          have htenth : 0 < x.digits / 10 := by omega
          refine ih ⟨htenth, fun negative => ?_⟩
          rw [← h.value negative]
          refine ofDecimal_congr htenth h.pos ?_ negative
          have hdigits : x.digits = x.digits / 10 * 10 := by omega
          have hcast : (x.digits : ℚ) = (x.digits / 10 : Nat) * 10 := by exact_mod_cast hdigits
          rw [hcast, mul_assoc, zpow_add_one₀ (by norm_num), mul_comm (10 ^ x.power : ℚ) 10]
      · exact h

/-- The exact decimal of a number of the format reads back. -/
theorem readsAs_exact {m : Nat} {q : Int} (h : IsCanonical m q) (hm : 0 < m) :
    ReadsAs (exact m q) m q := by
  have hpos : 0 < (exact m q).digits := by
    unfold exact
    split
    · exact Nat.mul_pos hm (Nat.pow_pos (by omega))
    · exact Nat.mul_pos hm (Nat.pow_pos (by omega))
  have hvalue : ((exact m q).digits : ℚ) * 10 ^ (exact m q).power = m * 2 ^ q := by
    unfold exact
    split
    · next hq =>
        obtain ⟨k, rfl⟩ := Int.eq_ofNat_of_zero_le hq
        rw [Int.toNat_natCast, Nat.cast_mul, cast_natPow, Nat.cast_ofNat, zpow_natCast, zpow_zero,
          mul_one]
    · next hq =>
        obtain ⟨k, hk⟩ := Int.eq_ofNat_of_zero_le (show 0 ≤ -q by omega)
        have hten : (10 : ℚ) ^ k = 5 ^ k * 2 ^ k := by
          rw [← mul_pow]
          norm_num
        obtain rfl : q = -(k : Int) := by omega
        rw [neg_neg, Int.toNat_natCast, Nat.cast_mul, cast_natPow, Nat.cast_ofNat, zpow_neg, zpow_neg,
          zpow_natCast, zpow_natCast, hten, mul_inv, mul_assoc, mul_inv_cancel_left₀ (by positivity)]
  refine ⟨hpos, fun negative => ?_⟩
  rw [ofDecimal_eq_ofRatio hpos]
  refine ofRatio_of_isCanonical h (decimalRatio_fst_pos hpos _) (decimalRatio_pos _ _) ?_ negative
  rw [decimalRatio_value, hvalue]

/-- The shortest decimal of a number of the format reads back. -/
theorem readsAs_shortest {m : Nat} {q : Int} (h : IsCanonical m q) (hm : 0 < m) :
    ReadsAs (shortest m q) m q := by
  unfold shortest
  simp only
  split
  · next x hx =>
      refine readsAs_trim _ (readsAs_of_toDouble hm ?_)
      exact eq_of_beq (List.find?_some (p := fun x => toDouble false x == finite false m q) hx)
  · exact readsAs_exact h hm

end Decimal

end Rulebook
