/-! # Binary floating-point numbers of double precision

A number of the format is a signed whole number of up to 53 bits times a power
of two, an infinity, or not a number. Numbers are kept exactly, so every
operation here is a computation on whole numbers with one rounding, to the
nearest number of the format and to the even one of two that are equally near.
-/

namespace Rulebook

/-- A number of the double format. `finite negative m q` is `m * 2 ^ q` with the
sign given. Not-a-number carries whether it was written out by name in a data
text: all such are one and the same number, and none is equal to a computed
one. -/
inductive Double
  | nan (named : Bool)
  | infinity (negative : Bool)
  | finite (negative : Bool) (significand : Nat) (exponent : Int)
  deriving Repr, DecidableEq, Inhabited

namespace Double

/-- The least exponent of the format. -/
def minExponent : Int := -1074

/-- The greatest exponent of the format. -/
def maxExponent : Int := 971

/-- One more than the greatest significand. -/
def significandBound : Nat := Nat.pow 2 53

/-- Zero, with a sign. -/
def zero (negative : Bool) : Double := .finite negative 0 minExponent

/-- A quotient rounded to the nearest whole number, halves to the even one. -/
def roundDiv (num den : Nat) : Nat :=
  let floor := num / den
  let twice := 2 * (num % den)
  if twice < den then floor
  else if twice = den then floor + floor % 2
  else floor + 1

/-- The parts of a quotient divided by `2 ^ q`, as numerator and denominator. -/
def scaled (num den : Nat) (q : Int) : Nat × Nat :=
  if 0 ≤ q then (num, den * Nat.pow 2 q.toNat) else (num * Nat.pow 2 (-q).toNat, den)

/-- The exponent that a positive quotient is rounded at: the least one, from
`minExponent` on, at which the quotient stays below `significandBound`. -/
def roundingExponent (num den : Nat) : Int :=
  let guess := max (Int.ofNat num.log2 - Int.ofNat den.log2 - 53) minExponent
  let (n, d) := scaled num den guess
  if n / d < significandBound then guess else guess + 1

/-- The number nearest to a quotient, with a sign. -/
def ofRatio (negative : Bool) (num den : Nat) : Double :=
  if num = 0 then zero negative
  else
    let q := roundingExponent num den
    let (n, d) := scaled num den q
    let m := roundDiv n d
    let (m, q) := if m < significandBound then (m, q) else (m / 2, q + 1)
    if maxExponent < q then .infinity negative else .finite negative m q

/-- The number nearest to `digits * 10 ^ power`. A power far outside of the
format is not computed: the number is an infinity or zero. -/
def ofDecimal (negative : Bool) (digits : Nat) (power : Int) : Double :=
  if digits = 0 then zero negative
  else
    let size : Int := digits.log2
    if 1100 < size + 3 * power && 0 ≤ power then .infinity negative
    else if size + 3 * power < -1100 && power < 0 then zero negative
    else if 0 ≤ power then ofRatio negative (digits * Nat.pow 10 power.toNat) 1
    else ofRatio negative digits (Nat.pow 10 (-power).toNat)

/-- The number nearest to a whole number. -/
def ofInt (i : Int) : Double := ofRatio (decide (i < 0)) i.natAbs 1

/-- Whether a number is a zero of either sign. -/
def isZero : Double → Bool
  | .finite _ 0 _ => true
  | _ => false

/-- The value of a finite number as a numerator and a positive denominator. -/
def ratio (negative : Bool) (m : Nat) (q : Int) : Int × Nat :=
  let signed : Int := if negative then -Int.ofNat m else Int.ofNat m
  if 0 ≤ q then (signed * Int.ofNat (Nat.pow 2 q.toNat), 1) else (signed, Nat.pow 2 (-q).toNat)

/-- Equality of numbers. The two zeros are equal; not-a-number is equal only to
one that is the same. -/
def same : Double → Double → Bool
  | .nan a, .nan b => a == b
  | .infinity a, .infinity b => a == b
  | .finite s m q, .finite t n r =>
      let (a, d) := ratio s m q
      let (b, e) := ratio t n r
      a * e == b * d
  | _, _ => false

/-- Equality of a number with a whole number, without rounding. -/
def sameInt : Double → Int → Bool
  | .finite s m q, i =>
      let (a, d) := ratio s m q
      a == i * d
  | _, _ => false

/-- The sum of two numbers. The sum of two zeros is negative only if both are,
and a sum that cancels is the positive zero. -/
def add : Double → Double → Double
  | .nan _, _ => .nan false
  | _, .nan _ => .nan false
  | .infinity a, .infinity b => if a == b then .infinity a else .nan false
  | .infinity a, _ => .infinity a
  | _, .infinity b => .infinity b
  | .finite s m q, .finite t n r =>
      if m = 0 && n = 0 then zero (s && t)
      else
        let (a, d) := ratio s m q
        let (b, e) := ratio t n r
        let total := a * e + b * d
        ofRatio (decide (total < 0)) total.natAbs (d * e)

end Double

end Rulebook
