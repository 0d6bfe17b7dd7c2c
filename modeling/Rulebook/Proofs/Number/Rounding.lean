import Mathlib.Algebra.Order.Field.Power
import Mathlib.Data.Rat.Cast.Order
import Mathlib.Tactic.FieldSimp
import Mathlib.Tactic.NormNum
import Rulebook.Number.Double

/-! # Rounding to the double format

Rounding a quotient depends on its value alone, not on the numerator and the
denominator that it is given by, and a number of the format rounds to itself.
-/

namespace Rulebook.Double

/-- The significand and the exponent of a finite number of the format. -/
structure IsCanonical (m : Nat) (q : Int) : Prop where
  bound : m < significandBound
  least : minExponent ≤ q
  greatest : q ≤ maxExponent
  normal : minExponent < q → 2 ^ 52 ≤ m

/-- A number of the format: an infinity, or one with canonical parts. -/
def IsNumber : Double → Prop
  | .nan _ => False
  | .infinity _ => True
  | .finite _ m q => IsCanonical m q

/-- Every number is equal to itself, also not-a-number, which is kept with its origin. -/
theorem same_self (x : Double) : x.same x = true := by
  cases x <;> simp [same]

theorem cast_natPow (b k : Nat) : ((Nat.pow b k : Nat) : ℚ) = (b : ℚ) ^ k := Nat.cast_pow b k

theorem scaled_pos {num den : Nat} (hden : 0 < den) (q : Int) : 0 < (scaled num den q).2 := by
  unfold scaled
  split
  · exact Nat.mul_pos hden (Nat.pow_pos (by omega))
  · exact hden

/-- Scaling divides by a power of two. -/
theorem scaled_ratio (num den : Nat) (q : Int) :
    ((scaled num den q).1 : ℚ) / (scaled num den q).2 = num / den / 2 ^ q := by
  unfold scaled
  split
  · next hq =>
      obtain ⟨k, rfl⟩ := Int.eq_ofNat_of_zero_le hq
      rw [Int.toNat_natCast, Nat.cast_mul, cast_natPow, Nat.cast_ofNat, zpow_natCast, div_div]
  · next hq =>
      obtain ⟨k, hk⟩ := Int.eq_ofNat_of_zero_le (show 0 ≤ -q by omega)
      obtain rfl : q = -(k : Int) := by omega
      rw [neg_neg, Int.toNat_natCast, Nat.cast_mul, cast_natPow, Nat.cast_ofNat, zpow_neg,
        zpow_natCast, div_inv_eq_mul, mul_div_right_comm]

/-- A quotient is below a bound if and only if its floor is. -/
theorem div_lt_iff_ratio_lt {n d : Nat} (hd : 0 < d) (k : Nat) :
    n / d < k ↔ (n : ℚ) / d < k := by
  rw [Nat.div_lt_iff_lt_mul hd, div_lt_iff₀ (by exact_mod_cast hd)]
  exact_mod_cast Iff.rfl

/-! ## The exponent of a quotient -/

/-- An exponent is the one that a quotient is rounded at: significands at it have
at most 53 bits, and at the next lower one they would have more. -/
structure RoundsAt (r : ℚ) (q : Int) : Prop where
  least : minExponent ≤ q
  below : r < 2 ^ (53 + q)
  tight : minExponent < q → 2 ^ (52 + q) ≤ r

theorem lt_of_two_zpow_lt {a b : Int} (h : (2 : ℚ) ^ a < 2 ^ b) : a < b :=
  (zpow_lt_zpow_iff_right₀ (by norm_num)).mp h

theorem RoundsAt.unique {r : ℚ} {q q' : Int} (h : RoundsAt r q) (h' : RoundsAt r q') : q = q' := by
  have hle : ∀ {a b : Int}, RoundsAt r a → RoundsAt r b → b ≤ a := by
    intro a b ha hb
    by_contra hlt
    have hpow := lt_of_two_zpow_lt ((hb.tight (by have := ha.least; omega)).trans_lt ha.below)
    omega
  exact le_antisymm (hle h' h) (hle h h')

theorem log2_bounds {n : Nat} (h : 0 < n) :
    (2 : ℚ) ^ (n.log2 : Int) ≤ n ∧ (n : ℚ) < 2 ^ ((n.log2 : Int) + 1) := by
  constructor
  · rw [zpow_natCast]
    exact_mod_cast Nat.log2_self_le (by omega : n ≠ 0)
  · have hlt : n < 2 ^ (n.log2 + 1) := Nat.lt_log2_self
    exact_mod_cast hlt

/-- The logarithms of numerator and denominator give that of the quotient up to
one. -/
theorem ratio_bounds {num den : Nat} (hnum : 0 < num) (hden : 0 < den) :
    (2 : ℚ) ^ ((num.log2 : Int) - den.log2 - 1) ≤ (num : ℚ) / den ∧
      (num : ℚ) / den < 2 ^ ((num.log2 : Int) - den.log2 + 1) := by
  obtain ⟨hnum_le, hnum_lt⟩ := log2_bounds hnum
  obtain ⟨hden_le, hden_lt⟩ := log2_bounds hden
  have hpos : (0 : ℚ) < den := by exact_mod_cast hden
  have htwo : (0 : ℚ) < 2 := by norm_num
  constructor
  · rw [le_div_iff₀ hpos]
    calc (2 : ℚ) ^ ((num.log2 : Int) - den.log2 - 1) * den
        ≤ 2 ^ ((num.log2 : Int) - den.log2 - 1) * 2 ^ ((den.log2 : Int) + 1) :=
          mul_le_mul_of_nonneg_left hden_lt.le (zpow_pos htwo _).le
      _ = 2 ^ (num.log2 : Int) := by rw [← zpow_add₀ htwo.ne']; congr 1; omega
      _ ≤ num := hnum_le
  · rw [div_lt_iff₀ hpos]
    calc (num : ℚ) < 2 ^ ((num.log2 : Int) + 1) := hnum_lt
      _ = 2 ^ ((num.log2 : Int) - den.log2 + 1) * 2 ^ (den.log2 : Int) := by
          rw [← zpow_add₀ htwo.ne']; congr 1; omega
      _ ≤ 2 ^ ((num.log2 : Int) - den.log2 + 1) * den :=
          mul_le_mul_of_nonneg_left hden_le (zpow_pos htwo _).le

/-- The floor of a scaled quotient has at most 53 bits if the quotient is below
the power of two that this says. -/
theorem scaled_div_lt_iff {num den : Nat} (hden : 0 < den) (q : Int) :
    (scaled num den q).1 / (scaled num den q).2 < significandBound ↔
      (num : ℚ) / den < 2 ^ (53 + q) := by
  have htwo : (0 : ℚ) < 2 := by norm_num
  have hbound : ((significandBound : Nat) : ℚ) = 2 ^ (53 : Int) := by
    rw [significandBound]
    norm_num
  rw [div_lt_iff_ratio_lt (scaled_pos hden q), scaled_ratio, div_lt_iff₀ (zpow_pos htwo q), hbound,
    ← zpow_add₀ htwo.ne']

theorem roundsAt_roundingExponent {num den : Nat} (hnum : 0 < num) (hden : 0 < den) :
    RoundsAt ((num : ℚ) / den) (roundingExponent num den) := by
  obtain ⟨hle, hlt⟩ := ratio_bounds hnum hden
  have hmono : ∀ {a b : Int}, a ≤ b → (2 : ℚ) ^ a ≤ 2 ^ b :=
    fun hab => zpow_le_zpow_right₀ (by norm_num) hab
  unfold roundingExponent
  simp only [Int.ofNat_eq_natCast]
  have hguess := @scaled_div_lt_iff num den hden
    (max ((num.log2 : Int) - den.log2 - 53) minExponent)
  -- The guess is low by at most one, because the logarithms are.
  split
  · next hbelow =>
      refine ⟨le_max_right _ _, hguess.mp hbelow, ?_⟩
      intro hnormal
      exact (hmono (by omega)).trans hle
  · next habove =>
      have hge := not_lt.mp fun hbelow => habove (hguess.mpr hbelow)
      refine ⟨by omega, hlt.trans_le (hmono (by omega)), ?_⟩
      intro _
      exact (hmono (by omega)).trans hge

/-! ## The value of a quotient decides -/

theorem roundDiv_mul {n d k : Nat} (hk : 0 < k) : roundDiv (n * k) (d * k) = roundDiv n d := by
  have hdiv : n * k / (d * k) = n / d := Nat.mul_div_mul_right n d hk
  have hmod : n * k % (d * k) = n % d * k := Nat.mul_mod_mul_right k n d
  have htwice : 2 * (n % d * k) = 2 * (n % d) * k := (Nat.mul_assoc 2 (n % d) k).symm
  simp only [roundDiv, hdiv, hmod, htwice, Nat.mul_lt_mul_right hk, Nat.mul_left_inj hk.ne']

theorem roundDiv_congr {n d n' d' : Nat} (hd : 0 < d) (hd' : 0 < d')
    (h : (n : ℚ) / d = n' / d') : roundDiv n d = roundDiv n' d' := by
  have hcross : n * d' = n' * d := by
    rw [div_eq_div_iff (by exact_mod_cast hd.ne') (by exact_mod_cast hd'.ne')] at h
    exact_mod_cast h
  rw [← roundDiv_mul hd', hcross, Nat.mul_comm d d', roundDiv_mul hd]

theorem roundDiv_mul_self (m : Nat) {d : Nat} (hd : 0 < d) : roundDiv (m * d) d = m := by
  simp [roundDiv, Nat.mul_div_cancel m hd, hd]

/-- The number of a significand, which may have become too large by rounding, and
an exponent. -/
def ofSignificand (negative : Bool) (m : Nat) (q : Int) : Double :=
  let (m, q) := if m < significandBound then (m, q) else (m / 2, q + 1)
  if maxExponent < q then .infinity negative else .finite negative m q

theorem ofRatio_eq {num : Nat} (hnum : 0 < num) (den : Nat) (negative : Bool) :
    ofRatio negative num den =
      ofSignificand negative
        (roundDiv (scaled num den (roundingExponent num den)).1
          (scaled num den (roundingExponent num den)).2)
        (roundingExponent num den) := by
  rw [ofRatio, if_neg hnum.ne']
  rfl

/-- Equal quotients round to the same number. -/
theorem ofRatio_congr {num den num' den' : Nat} (hden : 0 < den) (hden' : 0 < den')
    (h : (num : ℚ) / den = num' / den') (negative : Bool) :
    ofRatio negative num den = ofRatio negative num' den' := by
  rcases Nat.eq_zero_or_pos num with rfl | hnum
  · have hzero : num' = 0 := by
      rw [Nat.cast_zero, zero_div, eq_comm, div_eq_zero_iff] at h
      rcases h with hnum' | hden'_zero
      · exact_mod_cast hnum'
      · exact absurd (by exact_mod_cast hden'_zero) hden'.ne'
    rw [ofRatio, ofRatio, if_pos rfl, if_pos hzero]
  · have hnum' : 0 < num' := by
      rcases Nat.eq_zero_or_pos num' with rfl | hnum'
      · rw [Nat.cast_zero, zero_div] at h
        have hpos : (0 : ℚ) < num / den := div_pos (by exact_mod_cast hnum) (by exact_mod_cast hden)
        exact absurd h hpos.ne'
      · exact hnum'
    -- The two quotients may be scaled from different parts, but at the same exponent.
    have hexponent : roundingExponent num den = roundingExponent num' den' := by
      have hround := roundsAt_roundingExponent hnum hden
      rw [h] at hround
      exact hround.unique (roundsAt_roundingExponent hnum' hden')
    rw [ofRatio_eq hnum, ofRatio_eq hnum', hexponent]
    congr 1
    refine roundDiv_congr (scaled_pos hden _) (scaled_pos hden' _) ?_
    rw [scaled_ratio, scaled_ratio, h]

/-! ## What is exact, too large or too small -/

theorem ofSignificand_of_lt {m : Nat} {q : Int} (hm : m < significandBound) (hq : q ≤ maxExponent)
    (negative : Bool) : ofSignificand negative m q = .finite negative m q := by
  simp only [ofSignificand, if_pos hm]
  rw [if_neg (not_lt.mpr hq)]

theorem ofSignificand_of_maxExponent_lt {q : Int} (hq : maxExponent < q) (negative : Bool) (m : Nat) :
    ofSignificand negative m q = .infinity negative := by
  unfold ofSignificand
  by_cases hm : m < significandBound
  · simp only [if_pos hm, if_pos hq]
  · simp only [if_neg hm]
    rw [if_pos (by omega)]

theorem IsCanonical.roundsAt {m : Nat} {q : Int} (h : IsCanonical m q) :
    RoundsAt ((m : ℚ) * 2 ^ q) q := by
  have htwo : (0 : ℚ) < 2 := by norm_num
  have hbound : m < 2 ^ 53 := h.bound
  refine ⟨h.least, ?_, ?_⟩
  · rw [zpow_add₀ htwo.ne']
    exact mul_lt_mul_of_pos_right (by exact_mod_cast hbound) (zpow_pos htwo q)
  · intro hnormal
    rw [zpow_add₀ htwo.ne']
    exact mul_le_mul_of_nonneg_right (by exact_mod_cast h.normal hnormal) (zpow_pos htwo q).le

/-- A number of the format rounds to itself. -/
theorem ofRatio_of_isCanonical {m : Nat} {q : Int} (h : IsCanonical m q) {num den : Nat}
    (hnum : 0 < num) (hden : 0 < den) (hratio : (num : ℚ) / den = m * 2 ^ q) (negative : Bool) :
    ofRatio negative num den = .finite negative m q := by
  have htwo : (0 : ℚ) < 2 := by norm_num
  have hexponent : roundingExponent num den = q := by
    have hround := roundsAt_roundingExponent hnum hden
    rw [hratio] at hround
    exact hround.unique h.roundsAt
  have hsignificand : roundDiv (scaled num den q).1 (scaled num den q).2 = m := by
    have hvalue : ((scaled num den q).1 : ℚ) / (scaled num den q).2 = (m * 1 : Nat) / (1 : Nat) := by
      rw [scaled_ratio, hratio, mul_div_cancel_right₀ _ (zpow_pos htwo q).ne']
      norm_num
    rw [roundDiv_congr (scaled_pos hden q) Nat.one_pos hvalue, roundDiv_mul_self m Nat.one_pos]
  rw [ofRatio_eq hnum, hexponent, hsignificand, ofSignificand_of_lt h.bound h.greatest]

/-- A quotient that is far too large rounds to an infinity. -/
theorem ofRatio_of_large {num den : Nat} (hnum : 0 < num) (hden : 0 < den)
    (h : (2 : ℚ) ^ (1100 : Int) ≤ num / den) (negative : Bool) :
    ofRatio negative num den = .infinity negative := by
  have hround := roundsAt_roundingExponent hnum hden
  have hexponent := lt_of_two_zpow_lt (h.trans_lt hround.below)
  rw [ofRatio_eq hnum]
  refine ofSignificand_of_maxExponent_lt ?_ _ _
  have hmax : maxExponent = 971 := rfl
  omega

/-- A quotient that is far too small rounds to a zero. -/
theorem ofRatio_of_small {num den : Nat} (hnum : 0 < num) (hden : 0 < den)
    (h : (num : ℚ) / den < 2 ^ (-1100 : Int)) (negative : Bool) :
    ofRatio negative num den = zero negative := by
  have htwo : (0 : ℚ) < 2 := by norm_num
  have hmin : minExponent = -1074 := rfl
  have hexponent : roundingExponent num den = minExponent := by
    refine (roundsAt_roundingExponent hnum hden).unique ⟨le_refl _, h.trans ?_, by omega⟩
    exact zpow_lt_zpow_right₀ (by norm_num) (by omega)
  have hsignificand :
      roundDiv (scaled num den minExponent).1 (scaled num den minExponent).2 = 0 := by
    have hpos : 0 < (scaled num den minExponent).2 := scaled_pos hden minExponent
    have hratio : ((scaled num den minExponent).1 : ℚ) / (scaled num den minExponent).2 <
        2 ^ (-1 : Int) := by
      rw [scaled_ratio, div_lt_iff₀ (zpow_pos htwo _), ← zpow_add₀ htwo.ne']
      exact h.trans (zpow_lt_zpow_right₀ (by norm_num) (by omega))
    have htwice : 2 * (scaled num den minExponent).1 < (scaled num den minExponent).2 := by
      rw [zpow_neg_one, div_lt_iff₀ (by exact_mod_cast hpos), inv_mul_eq_div, lt_div_iff₀ htwo,
        mul_comm] at hratio
      exact_mod_cast hratio
    have hlt : (scaled num den minExponent).1 < (scaled num den minExponent).2 := by omega
    simp only [roundDiv, Nat.div_eq_of_lt hlt, Nat.mod_eq_of_lt hlt, if_pos htwice]
  rw [ofRatio_eq hnum, hexponent, hsignificand]
  rfl

/-! ## What is rounded is a number of the format -/

theorem isNumber_zero (negative : Bool) : (zero negative).IsNumber :=
  ⟨by decide, le_refl _, by decide, fun h => absurd h (lt_irrefl _)⟩

theorem div_le_roundDiv (n d : Nat) : n / d ≤ roundDiv n d := by
  unfold roundDiv
  dsimp only
  split
  · exact le_refl _
  · split
    · exact Nat.le_add_right _ _
    · exact Nat.le_succ _

theorem roundDiv_le (n d : Nat) : roundDiv n d ≤ n / d + 1 := by
  unfold roundDiv
  dsimp only
  split
  · exact Nat.le_succ _
  · split
    · have := Nat.mod_lt (n / d) Nat.two_pos
      omega
    · exact le_refl _

/-- A significand that rounding made one bit too long is even, so halving it loses
nothing; either way the parts are those of a number of the format, or too large. -/
theorem isNumber_ofSignificand {m : Nat} {q : Int} (hbound : m ≤ significandBound)
    (hleast : minExponent ≤ q) (hnormal : minExponent < q → 2 ^ 52 ≤ m) (negative : Bool) :
    (ofSignificand negative m q).IsNumber := by
  have hsize : significandBound = 2 ^ 53 := rfl
  unfold ofSignificand
  by_cases hm : m < significandBound
  · simp only [if_pos hm]
    split
    · trivial
    · next hq => exact ⟨hm, hleast, not_lt.mp hq, hnormal⟩
  · simp only [if_neg hm]
    split
    · trivial
    · next hq => exact ⟨by omega, by omega, not_lt.mp hq, fun _ => by omega⟩

/-- What a quotient is rounded to is a number of the format. -/
theorem isNumber_ofRatio (num : Nat) {den : Nat} (hden : 0 < den) (negative : Bool) :
    (ofRatio negative num den).IsNumber := by
  rcases Nat.eq_zero_or_pos num with rfl | hnum
  · rw [ofRatio, if_pos rfl]
    exact isNumber_zero negative
  · have hround := roundsAt_roundingExponent hnum hden
    have hbelow := (scaled_div_lt_iff hden _).mpr hround.below
    rw [ofRatio_eq hnum]
    refine isNumber_ofSignificand ?_ hround.least ?_ negative
    · exact (roundDiv_le _ _).trans hbelow
    · intro hnormal
      refine le_trans ?_ (div_le_roundDiv _ _)
      refine not_lt.mp fun hlt => not_lt.mpr (hround.tight hnormal) ?_
      rw [div_lt_iff_ratio_lt (scaled_pos hden _), scaled_ratio,
        div_lt_iff₀ (zpow_pos (by norm_num) _)] at hlt
      have hpow : ((2 ^ 52 : Nat) : ℚ) = 2 ^ (52 : Int) := by norm_num
      rwa [hpow, ← zpow_add₀ (by norm_num)] at hlt

end Rulebook.Double
