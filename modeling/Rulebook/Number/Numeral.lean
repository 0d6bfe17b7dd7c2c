import Rulebook.Number.Decimal
import Rulebook.Text.Blank

/-! # Numerals

Two readers of numbers, one of whole numbers and one of numbers with a point or
an exponent. Both take the decimal digits of any script, allow blanks around
the numeral and a single underscore between two digits. A whole number has at
most `maxIntegerDigits` digits.
-/

namespace Rulebook.Numeral

open Text

/-- The most digits that are read as a whole number. -/
def maxIntegerDigits : Nat := 4300

/-- A blank that may stand around a numeral. The separators U+001C to U+001F may
not. -/
def isMargin (c : Char) : Bool := isBlank c && !(0x1c ≤ c.toNat && c.toNat ≤ 0x1f)

/-- A numeral in ASCII: digits of other scripts become ASCII digits. -/
def toAscii (c : Char) : Char :=
  match decimalValue? c with
  | some v => Nat.digitChar v
  | none => c

/-- A text without the blanks around it. -/
def strip (text : List Char) : List Char :=
  ((text.dropWhile isMargin).reverse.dropWhile isMargin).reverse

/-- A text without its underscores, if each of them stands between two digits.
The first argument says whether a digit came just before. -/
def joinDigits : Bool → List Char → Option (List Char)
  | _, [] => some []
  | afterDigit, '_' :: rest =>
      match rest with
      | d :: _ => if afterDigit && isAsciiDigit d then joinDigits false rest else none
      | [] => none
  | _, c :: rest => (joinDigits (isAsciiDigit c) rest).map (c :: ·)

/-- The sign at the head of a numeral: whether it is negative, and the rest. -/
def splitSign : List Char → Bool × List Char
  | '-' :: rest => (true, rest)
  | '+' :: rest => (false, rest)
  | rest => (false, rest)

/-- The value of a run of ASCII digits. -/
def natOfDigits (digits : List Char) : Nat :=
  digits.foldl (fun n d => 10 * n + asciiDigitValue d) 0

/-- The text that both readers start from: stripped, in ASCII, without
underscores. -/
def normalize (text : List Char) : Option (List Char) :=
  joinDigits false ((strip text).map toAscii)

/-- Reads a whole number: a sign and digits. -/
def integer? (text : List Char) : Option Int := do
  let (negative, digits) := splitSign (← normalize text)
  if digits.isEmpty || !digits.all isAsciiDigit || maxIntegerDigits < digits.length then none
  else
    let n : Int := natOfDigits digits
    some (if negative then -n else n)

/-- Reads the exponent at the end of a numeral: nothing, or a letter `e`, a sign
and digits. -/
def exponent? : List Char → Option Int
  | [] => some 0
  | c :: rest =>
      if c = 'e' || c = 'E' then
        let (negative, digits) := splitSign rest
        if digits.isEmpty || !digits.all isAsciiDigit then none
        else
          let n : Int := natOfDigits digits
          some (if negative then -n else n)
      else none

/-- The digits after a point, and what follows them. -/
def splitFraction : List Char → List Char × List Char
  | '.' :: rest => (rest.takeWhile isAsciiDigit, rest.dropWhile isAsciiDigit)
  | rest => ([], rest)

/-- Reads a number of the double format: a sign, then digits with a point among
or around them and an exponent, or the name of an infinity or of not-a-number
in any letter case. -/
def double? (text : List Char) : Option Double := do
  let (negative, body) := splitSign (← normalize text)
  let name := String.ofList (body.map Char.toLower)
  if name = "inf" || name = "infinity" then some (.infinity negative)
  else if name = "nan" then some (.nan false)
  else
    let whole := body.takeWhile isAsciiDigit
    let (fraction, tail) := splitFraction (body.dropWhile isAsciiDigit)
    if whole.isEmpty && fraction.isEmpty then none
    else
      let e ← exponent? tail
      some (.ofDecimal negative (natOfDigits (whole ++ fraction)) (e - fraction.length))

end Rulebook.Numeral
