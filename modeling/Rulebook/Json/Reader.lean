import Rulebook.Json.Basic
import Rulebook.Number.Numeral
import Rulebook.Reading
import Rulebook.Text.Delimited

/-! # Reading JSON texts

The grammar of RFC 8259, and beyond it the names `NaN`, `Infinity` and
`-Infinity` as numbers. A number without fraction and exponent is a whole
number, of at most `Numeral.maxIntegerDigits` digits. Of members with one key
the last one counts.
-/

namespace Rulebook.Json

open Text Numeral

/-- Why a text is refused. -/
inductive Fault
  | malformed
  | tooManyDigits
  deriving Repr, DecidableEq

/-- White space between the tokens of a text. -/
def isSpace (c : Char) : Bool := c = ' ' || c = '\t' || c = '\n' || c = '\r'

/-- A text without the white space at its head. -/
def skipSpace (text : List Char) : List Char := text.dropWhile isSpace

theorem length_skipSpace_le (text : List Char) : (skipSpace text).length ≤ text.length :=
  (List.dropWhile_suffix isSpace).length_le

/-- The values that are written as names. -/
def names : List (List Char × Json) :=
  [("null".toList, .null), ("true".toList, .bool true), ("false".toList, .bool false),
   ("NaN".toList, .float (.nan true)), ("Infinity".toList, .float (.infinity false)),
   ("-Infinity".toList, .float (.infinity true))]

/-- The named value among the given ones at the head of a text, and the rest. -/
def named? (names : List (List Char × Json)) (text : List Char) : Option (Json × List Char) :=
  match names with
  | [] => none
  | (name, j) :: more =>
      match after? name text with
      | some rest => some (j, rest)
      | none => named? more text

theorem length_of_named? {names : List (List Char × Json)} (hne : ∀ n ∈ names, n.1 ≠ [])
    {text rest : List Char} {j : Json} (h : named? names text = some (j, rest)) :
    rest.length < text.length := by
  induction names with
  | nil => simp [named?] at h
  | cons n more ih =>
      obtain ⟨name, k⟩ := n
      simp only [named?] at h
      split at h
      next r hr =>
          simp only [Option.some.injEq, Prod.mk.injEq] at h
          have hname : name ≠ [] := hne (name, k) List.mem_cons_self
          have hpos : 0 < name.length := List.length_pos_iff.mpr hname
          rw [eq_append_of_after? hr, List.length_append, ← h.2]
          omega
      next => exact ih (fun n hn => hne n (List.mem_cons_of_mem _ hn)) h

/-- The value of a hexadecimal digit. -/
def hexValue? (c : Char) : Option Nat :=
  if '0' ≤ c ∧ c ≤ '9' then some (c.toNat - 48)
  else if 'a' ≤ c ∧ c ≤ 'f' then some (c.toNat - 87)
  else if 'A' ≤ c ∧ c ≤ 'F' then some (c.toNat - 55)
  else none

/-- The character that a one-letter escape stands for. -/
def escapedChar? (c : Char) : Option Char :=
  if c = '"' || c = '\\' || c = '/' then some c
  else if c = 'b' then some '\x08'
  else if c = 'f' then some '\x0c'
  else if c = 'n' then some '\n'
  else if c = 'r' then some '\r'
  else if c = 't' then some '\t'
  else none

/-- The code points of the body of a string. A character beyond the basic plane
may be written as two escapes, which give two surrogate code points here. -/
def codePoints? : List Char → Option (List Nat)
  | [] => some []
  | '\\' :: 'u' :: a :: b :: c :: d :: rest => do
      let n := 4096 * (← hexValue? a) + 256 * (← hexValue? b) + 16 * (← hexValue? c) + (← hexValue? d)
      return n :: (← codePoints? rest)
  | '\\' :: c :: rest => do
      let e ← escapedChar? c
      return e.toNat :: (← codePoints? rest)
  | c :: rest => do
      if c = '\\' then none
      return c.toNat :: (← codePoints? rest)

/-- A surrogate code point that begins a pair. -/
def isHighSurrogate (n : Nat) : Bool := 0xd800 ≤ n && n ≤ 0xdbff

/-- A surrogate code point that ends a pair. -/
def isLowSurrogate (n : Nat) : Bool := 0xdc00 ≤ n && n ≤ 0xdfff

/-- The character of a code point; a surrogate that is not paired gives the
replacement character. -/
def charOfCodePoint (n : Nat) : Char :=
  if n.isValidChar then Char.ofNat n else '\ufffd'

/-- Characters from code points, two surrogates that pair up giving one. -/
def joinSurrogates : List Nat → List Char
  | [] => []
  | [n] => [charOfCodePoint n]
  | n :: m :: rest =>
      if isHighSurrogate n && isLowSurrogate m then
        Char.ofNat (0x10000 + 1024 * (n - 0xd800) + (m - 0xdc00)) :: joinSurrogates rest
      else charOfCodePoint n :: joinSurrogates (m :: rest)

/-- A character that stands for itself in a string: any but a control
character. -/
def isPlain (c : Char) : Bool := 32 ≤ c.toNat

/-- Reads a string after its opening quote. -/
def readString (text : List Char) : Except Fault (Reading Char String text.length) :=
  match h : delimited '"' isPlain text with
  | none => .error .malformed
  | some (body, rest) =>
      match codePoints? body with
      | none => .error .malformed
      | some points =>
          .ok ⟨String.ofList (joinSurrogates points), rest, length_of_delimited h⟩

/-- The parts of a number in writing. -/
structure NumberText where
  negative : Bool
  whole : List Char
  fraction : Option (List Char)
  exponent : Option (Bool × List Char)

/-- Splits off the digits at the head of a text. -/
def splitDigits (text : List Char) : List Char × List Char :=
  (text.takeWhile isAsciiDigit, text.dropWhile isAsciiDigit)

/-- The whole part of a number: a zero, or digits of which the first is none. -/
def splitWhole (text : List Char) : List Char × List Char :=
  match text with
  | '0' :: rest => (['0'], rest)
  | _ => splitDigits text

/-- The fraction of a number: a point and at least one digit. -/
def splitFraction? (text : List Char) : Option (List Char) × List Char :=
  match text with
  | '.' :: rest =>
      let (digits, tail) := splitDigits rest
      if digits.isEmpty then (none, text) else (some digits, tail)
  | _ => (none, text)

/-- The exponent of a number: a letter `e`, a sign or none, at least one digit. -/
def splitExponent? (text : List Char) : Option (Bool × List Char) × List Char :=
  match text with
  | c :: rest =>
      if c = 'e' || c = 'E' then
        let (negative, unsigned) := splitSign rest
        let (digits, tail) := splitDigits unsigned
        if digits.isEmpty then (none, text) else (some (negative, digits), tail)
      else (none, text)
  | [] => (none, text)

theorem length_splitDigits_le (text : List Char) : (splitDigits text).2.length ≤ text.length :=
  (List.dropWhile_suffix isAsciiDigit).length_le

theorem length_splitWhole_lt {text : List Char} (h : (splitWhole text).1 ≠ []) :
    (splitWhole text).2.length < text.length := by
  unfold splitWhole at h ⊢
  split at h
  · exact Nat.lt_succ_self _
  · have hsum := congrArg List.length (List.takeWhile_append_dropWhile (p := isAsciiDigit) (l := text))
    rw [List.length_append] at hsum
    have hpos := List.length_pos_iff.mpr h
    simp only [splitDigits] at hpos ⊢
    omega

theorem length_splitFraction?_le (text : List Char) :
    (splitFraction? text).2.length ≤ text.length := by
  unfold splitFraction?
  split
  · rename_i rest
    have := length_splitDigits_le rest
    simp only
    split
    · exact Nat.le_refl _
    · simp only [List.length_cons]
      omega
  · exact Nat.le_refl _

theorem length_splitSign_le (text : List Char) : (splitSign text).2.length ≤ text.length := by
  unfold splitSign
  split
  · exact Nat.le_succ _
  · exact Nat.le_succ _
  · exact Nat.le_refl _

theorem length_splitExponent?_le (text : List Char) :
    (splitExponent? text).2.length ≤ text.length := by
  unfold splitExponent?
  split
  · rename_i c rest
    split
    · have hsign := length_splitSign_le rest
      have hdigits := length_splitDigits_le (splitSign rest).2
      simp only
      split
      · exact Nat.le_refl _
      · simp only [List.length_cons]
        omega
    · exact Nat.le_refl _
  · exact Nat.le_refl _

/-- The number that is written. -/
def NumberText.value (n : NumberText) : Except Fault Json :=
  match n.fraction, n.exponent with
  | none, none =>
      if maxIntegerDigits < n.whole.length then .error .tooManyDigits
      else
        let i : Int := natOfDigits n.whole
        .ok (.int (if n.negative then -i else i))
  | _, _ =>
      let fraction := n.fraction.getD []
      let exponent : Int := match n.exponent with
        | none => 0
        | some (negative, digits) =>
            let e : Int := natOfDigits digits
            if negative then -e else e
      .ok (.float (.ofDecimal n.negative (natOfDigits (n.whole ++ fraction)) (exponent - fraction.length)))

/-- Splits off a minus sign. -/
def splitMinus : List Char → Bool × List Char
  | '-' :: rest => (true, rest)
  | rest => (false, rest)

theorem length_splitMinus_le (text : List Char) : (splitMinus text).2.length ≤ text.length := by
  unfold splitMinus
  split
  · exact Nat.le_succ _
  · exact Nat.le_refl _

/-- Reads a number. -/
def readNumber (text : List Char) : Except Fault (Reading Char Json text.length) :=
  let unsigned := (splitMinus text).2
  let afterWhole := (splitWhole unsigned).2
  let afterFraction := (splitFraction? afterWhole).2
  if h : (splitWhole unsigned).1 ≠ [] then do
    let n : NumberText :=
      { negative := (splitMinus text).1, whole := (splitWhole unsigned).1,
        fraction := (splitFraction? afterWhole).1, exponent := (splitExponent? afterFraction).1 }
    let j ← n.value
    .ok ⟨j, (splitExponent? afterFraction).2, by
      have h1 := length_splitMinus_le text
      have h2 := length_splitWhole_lt h
      have h3 := length_splitFraction?_le afterWhole
      have h4 := length_splitExponent?_le afterFraction
      exact Nat.lt_of_le_of_lt h4 (Nat.lt_of_le_of_lt h3 (Nat.lt_of_lt_of_le h2 h1))⟩
  else .error .malformed

theorem names_ne_nil : ∀ n ∈ names, n.1 ≠ [] := by decide

/-- Reads a value that is written as a name. -/
def readName? (text : List Char) : Option (Reading Char Json text.length) :=
  match h : named? names text with
  | some (j, rest) => some ⟨j, rest, length_of_named? names_ne_nil h⟩
  | none => none

mutual

/-- Reads a value at the head of a text. -/
def readValue (text : List Char) : Except Fault (Reading Char Json text.length) :=
  match readName? text with
  | some r => .ok r
  | none =>
      match text with
      | '"' :: tail => do
          let s ← readString tail
          .ok ⟨.string s.value, s.rest, Nat.lt_succ_of_lt s.short⟩
      | '[' :: tail =>
          match hs : skipSpace tail with
          | ']' :: rest => .ok ⟨.array [], rest, by
              have := length_skipSpace_le tail
              simp only [hs, List.length_cons] at this ⊢
              omega⟩
          | _ => do
              let r ← readElements (skipSpace tail)
              .ok ⟨.array r.value, r.rest, by
                have := length_skipSpace_le tail
                have := r.short
                simp only [List.length_cons]
                omega⟩
      | '\x7b' :: tail =>
          match hs : skipSpace tail with
          | '\x7d' :: rest => .ok ⟨.object [], rest, by
              have := length_skipSpace_le tail
              simp only [hs, List.length_cons] at this ⊢
              omega⟩
          | _ => do
              let r ← readMembers (skipSpace tail)
              .ok ⟨ofMembers r.value, r.rest, by
                have := length_skipSpace_le tail
                have := r.short
                simp only [List.length_cons]
                omega⟩
      | text => readNumber text
termination_by (text.length, 0)
decreasing_by
  all_goals
    have := length_skipSpace_le tail
    simp only [List.length_cons]
    apply Prod.Lex.left
    omega

/-- Reads the elements of an array up to its closing bracket. -/
def readElements (text : List Char) : Except Fault (Reading Char (List Json) text.length) := do
  let v ← readValue text
  match h : skipSpace v.rest with
  | ',' :: tail => do
      let more ← readElements (skipSpace tail)
      .ok ⟨v.value :: more.value, more.rest, by
        have h1 := length_skipSpace_le v.rest
        have h2 := length_skipSpace_le tail
        have h3 := more.short
        have h4 := v.short
        simp only [h, List.length_cons] at h1
        omega⟩
  | ']' :: rest => .ok ⟨[v.value], rest, by
      have h1 := length_skipSpace_le v.rest
      have h2 := v.short
      simp only [h, List.length_cons] at h1
      omega⟩
  | _ => .error .malformed
termination_by (text.length, 1)
decreasing_by
  · exact Prod.Lex.right _ Nat.zero_lt_one
  · have h1 := length_skipSpace_le v.rest
    have h2 := length_skipSpace_le tail
    have h3 := v.short
    simp only [h, List.length_cons] at h1
    apply Prod.Lex.left
    omega

/-- Reads the members of an object up to its closing brace. -/
def readMembers (text : List Char) : Except Fault (Reading Char (List (String × Json)) text.length) :=
  match text with
  | '"' :: tail => do
      let key ← readString tail
      match hk : skipSpace key.rest with
      | ':' :: afterColon => do
          let v ← readValue (skipSpace afterColon)
          match h : skipSpace v.rest with
          | ',' :: afterComma => do
              let more ← readMembers (skipSpace afterComma)
              .ok ⟨(key.value, v.value) :: more.value, more.rest, by
                have h1 := length_skipSpace_le key.rest
                have h2 := length_skipSpace_le afterColon
                have h3 := length_skipSpace_le v.rest
                have h4 := length_skipSpace_le afterComma
                have h5 := key.short
                have h6 := v.short
                have h7 := more.short
                simp only [hk, h, List.length_cons] at h1 h3 ⊢
                omega⟩
          | '\x7d' :: rest => .ok ⟨[(key.value, v.value)], rest, by
              have h1 := length_skipSpace_le key.rest
              have h2 := length_skipSpace_le afterColon
              have h3 := length_skipSpace_le v.rest
              have h5 := key.short
              have h6 := v.short
              simp only [hk, h, List.length_cons] at h1 h3 ⊢
              omega⟩
          | _ => .error .malformed
      | _ => .error .malformed
  | _ => .error .malformed
termination_by (text.length, 1)
decreasing_by
  · have h1 := length_skipSpace_le key.rest
    have h2 := length_skipSpace_le afterColon
    have h5 := key.short
    simp only [hk, List.length_cons] at h1 ⊢
    apply Prod.Lex.left
    omega
  · have h1 := length_skipSpace_le key.rest
    have h2 := length_skipSpace_le afterColon
    have h3 := length_skipSpace_le v.rest
    have h4 := length_skipSpace_le afterComma
    have h5 := key.short
    have h6 := v.short
    simp only [hk, h, List.length_cons] at h1 h3 ⊢
    apply Prod.Lex.left
    omega

end

/-- Reads a whole text as one value with white space around it. -/
def parseChars (text : List Char) : Except Fault Json := do
  let r ← readValue (skipSpace text)
  if (skipSpace r.rest).isEmpty then .ok r.value else .error .malformed

/-- Reads a whole text as one value with white space around it. -/
def parse (text : String) : Except Fault Json := parseChars text.toList

end Rulebook.Json
