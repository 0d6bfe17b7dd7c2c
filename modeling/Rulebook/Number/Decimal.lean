import Rulebook.Number.Double

/-! # The shortest decimal of a number

A finite number of the double format is written with the fewest digits that
read back to it, and of those digits with the ones nearest to it. Where the
point stands decides between positional and exponent form.
-/

namespace Rulebook

/-- A decimal: a whole number of digits times a power of ten. -/
structure Decimal where
  digits : Nat
  power : Int
  deriving Repr, DecidableEq

namespace Decimal

/-- The decimal digits of a whole number, most significant first. -/
def digitsOf (n : Nat) : List Char := Nat.toDigits 10 n

/-- The power of ten just above a positive quotient: the least `k` with
`num / den < 10 ^ k`. -/
def size (num den : Nat) : Int :=
  if den ≤ num then (digitsOf (num / den)).length
  else
    let digits := (digitsOf (den / num)).length
    if den ≤ num * Nat.pow 10 (digits - 1) then 2 - digits else 1 - digits

/-- The two neighbours of a quotient on the grid of multiples of `10 ^ power`,
the nearer one first; of two equally near, the even one. -/
def neighbours (num den : Nat) (power : Int) : List Decimal :=
  let (n, d) := if 0 ≤ power then (num, den * Nat.pow 10 power.toNat)
    else (num * Nat.pow 10 (-power).toNat, den)
  let below := n / d
  let twice := 2 * (n % d)
  if twice < d || (twice = d && below % 2 = 0) then [⟨below, power⟩, ⟨below + 1, power⟩]
  else [⟨below + 1, power⟩, ⟨below, power⟩]

/-- The same decimal without trailing zeros among its digits, removing at most
as many as the first argument says. -/
def trim : Nat → Decimal → Decimal
  | 0, x => x
  | fuel + 1, x =>
      if x.digits ≠ 0 && x.digits % 10 = 0 then trim fuel ⟨x.digits / 10, x.power + 1⟩ else x

/-- The number of the double format that a decimal is read as. -/
def toDouble (negative : Bool) (x : Decimal) : Double := .ofDecimal negative x.digits x.power

/-- The most digits that a shortest decimal needs. -/
def maxDigits : Nat := 17

/-- The exact decimal of `m * 2 ^ q`. -/
def exact (m : Nat) (q : Int) : Decimal :=
  if 0 ≤ q then ⟨m * Nat.pow 2 q.toNat, 0⟩ else ⟨m * Nat.pow 5 (-q).toNat, q⟩

/-- The shortest decimal of the positive number `m * 2 ^ q`: of the grids from
one digit on, the first with a neighbour that reads back. -/
def shortest (m : Nat) (q : Int) : Decimal :=
  let (num, den) := Double.scaled m 1 (-q)
  let top := size num den
  let grids := (List.range maxDigits).flatMap fun n => neighbours num den (top - Int.ofNat (n + 1))
  match grids.find? fun x => x.toDouble false == .finite false m q with
  | some x => x.trim maxDigits
  | none => exact m q

end Decimal

/-- How numbers of the double format are written: the range of places of the
point that are written positionally, the least count of exponent digits, and
the names of what is not finite. -/
structure DoubleFormat where
  leastPoint : Int
  greatestPoint : Int
  exponentDigits : Nat
  infinity : List Char
  notANumber : List Char

namespace DoubleFormat

/-- The digits of an exponent, filled up with zeros on the left. -/
def exponentText (format : DoubleFormat) (e : Int) : List Char :=
  let digits := Decimal.digitsOf e.natAbs
  (if e < 0 then '-' else '+')
    :: List.replicate (format.exponentDigits - digits.length) '0' ++ digits

/-- Digits with the point after the first `point` of them. -/
def decimalText (format : DoubleFormat) (digits : List Char) (point : Int) : List Char :=
  if point < format.leastPoint || format.greatestPoint < point then
    let mantissa := match digits with
      | [] => []
      | [d] => [d]
      | d :: rest => d :: '.' :: rest
    mantissa ++ 'e' :: format.exponentText (point - 1)
  else if point ≤ 0 then
    '0' :: '.' :: List.replicate (-point).toNat '0' ++ digits
  else if point < digits.length then
    digits.take point.toNat ++ '.' :: digits.drop point.toNat
  else
    digits ++ List.replicate (point.toNat - digits.length) '0' ++ ['.', '0']

/-- A number in writing. -/
def write (format : DoubleFormat) : Double → List Char
  | .nan _ => format.notANumber
  | .infinity negative => (if negative then ['-'] else []) ++ format.infinity
  | .finite negative m q =>
      let sign := if negative then ['-'] else []
      if m = 0 then sign ++ ['0', '.', '0']
      else
        let x := Decimal.shortest m q
        let digits := Decimal.digitsOf x.digits
        sign ++ format.decimalText digits (digits.length + x.power)

/-- Numbers in a display: positional while the point stands within the first
sixteen digits or before at most three leading zeros. -/
def display : DoubleFormat :=
  { leastPoint := -3, greatestPoint := 16, exponentDigits := 2,
    infinity := "inf".toList, notANumber := "nan".toList }

/-- Numbers in a data text: as in a display, with names of their own for what is
not finite. -/
def data : DoubleFormat :=
  { display with infinity := "Infinity".toList, notANumber := "NaN".toList }

end DoubleFormat

end Rulebook
