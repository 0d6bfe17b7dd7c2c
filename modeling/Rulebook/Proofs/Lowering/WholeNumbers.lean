import Rulebook.Proofs.Lowering.Options
import Rulebook.Proofs.Lowering.PlainText

/-! # Whole numbers of options

A number without a point is lowered to the whole number that its digits and its sign denote,
as long as it has no more digits than are read as a whole number. With one digit more it is
lowered to the nearest number of the double format, which may be another number.
-/

namespace Rulebook

open Text Numeral

/-- A whole number in writing: digits, behind a minus sign or not. -/
structure WholeNumeral where
  negative : Bool
  digits : List Char
  digits_ne_nil : digits ≠ []
  all_digits : ∀ c ∈ digits, isAsciiDigit c

namespace WholeNumeral

/-- The minus sign of a whole number, if it has one. -/
def sign (n : WholeNumeral) : List Char := if n.negative then ['-'] else []

/-- The characters of a whole number. -/
def text (n : WholeNumeral) : List Char := n.sign ++ n.digits

/-- The number that the digits denote, the last of them being the ones. -/
def magnitude (n : WholeNumeral) : Nat := Nat.ofDigits 10 (n.digits.reverse.map asciiDigitValue)

/-- The number that the digits and the sign denote. -/
def value (n : WholeNumeral) : Int := if n.negative then -n.magnitude else n.magnitude

/-- The digits as a number without sign and fraction. -/
def unsigned (n : WholeNumeral) : UnsignedNumeral :=
  ⟨n.digits, none, n.digits_ne_nil, n.all_digits, by simp⟩

theorem unsigned_text (n : WholeNumeral) : n.unsigned.text = n.digits := List.append_nil _

theorem isNumeral_text (n : WholeNumeral) : IsNumeral n.text := by
  rw [text, sign, ← n.unsigned_text]
  by_cases hnegative : n.negative
  · rw [if_pos hnegative]
    exact .negative n.unsigned
  · rw [if_neg hnegative]
    exact .unsigned n.unsigned

/-- A number in writing without a point is a whole number. -/
theorem exists_of_isNumeral {text : List Char} (h : IsNumeral text) (hpoint : '.' ∉ text) :
    ∃ n : WholeNumeral, text = n.text := by
  have hunsigned : ∀ n : UnsignedNumeral, '.' ∉ n.text → n.text = n.whole := by
    intro n hn
    cases hfraction : n.fraction with
    | none => rw [UnsignedNumeral.text, hfraction]; exact List.append_nil _
    | some digits =>
        apply absurd _ hn
        rw [UnsignedNumeral.text, hfraction]
        exact List.mem_append_right _ List.mem_cons_self
  cases h with
  | unsigned n => exact ⟨⟨false, n.whole, n.whole_ne_nil, n.whole_digits⟩, hunsigned n hpoint⟩
  | negative n =>
      refine ⟨⟨true, n.whole, n.whole_ne_nil, n.whole_digits⟩, congrArg ('-' :: ·) ?_⟩
      exact hunsigned n fun hmem => hpoint (List.mem_cons_of_mem _ hmem)

theorem splitSign_text (n : WholeNumeral) : splitSign n.text = (n.negative, n.digits) := by
  have hdigits := splitSign_unsigned n.unsigned
  rw [unsigned_text] at hdigits
  cases hnegative : n.negative with
  | false => rwa [text, sign, hnegative, if_neg Bool.false_ne_true, List.nil_append]
  | true => rw [text, sign, hnegative, if_pos rfl]; rfl

/-- Digits are read from the left, each a ten times the ones in front of it. -/
theorem natOfDigits_digits (n : WholeNumeral) : natOfDigits n.digits = n.magnitude := by
  have hstep : (fun (m : Nat) (d : Char) => 10 * m + asciiDigitValue d) =
      fun m d => asciiDigitValue d + 10 * m := by
    funext m d
    exact Nat.add_comm _ _
  rw [magnitude, Nat.ofDigits_eq_foldr, List.map_reverse, List.foldr_reverse, List.foldl_map,
    natOfDigits, hstep]
  rfl

theorem integer?_text (n : WholeNumeral) :
    integer? n.text = if n.digits.length ≤ maxIntegerDigits then some n.value else none := by
  have hempty : n.digits.isEmpty = false := List.isEmpty_eq_false_iff.mpr n.digits_ne_nil
  have hall : n.digits.all isAsciiDigit = true := List.all_eq_true.mpr n.all_digits
  simp only [integer?, normalize_of_isNumeral n.isNumeral_text, Option.bind_eq_bind,
    Option.bind_some, n.splitSign_text, hempty, hall, n.natOfDigits_digits, value]
  by_cases hlength : n.digits.length ≤ maxIntegerDigits
  · simp [hlength, Nat.not_lt.mpr hlength]
  · simp [hlength, Nat.lt_of_not_le hlength]

theorem double?_text (n : WholeNumeral) :
    double? n.text = some (.ofDecimal n.negative n.magnitude 0) := by
  have hsign : splitSign n.text = (n.negative, n.unsigned.text) := by
    rw [n.splitSign_text, n.unsigned_text]
  rw [double?_of_splitSign n.isNumeral_text hsign, ← n.natOfDigits_digits]
  simp [unsigned]

/-- What a whole number in writing is read as: itself, unless it is too long for that. -/
def reading (n : WholeNumeral) : Json :=
  if n.digits.length ≤ maxIntegerDigits then .int n.value
  else .float (.ofDecimal n.negative n.magnitude 0)

theorem numberValue?_text (n : WholeNumeral) :
    Lowering.numberValue? (String.ofList n.text) = some n.reading := by
  rw [Lowering.numberValue?, String.toList_ofList, n.integer?_text, n.double?_text, reading]
  by_cases hlength : n.digits.length ≤ maxIntegerDigits
  · rw [if_pos hlength, if_pos hlength]
  · rw [if_neg hlength, if_neg hlength]
    rfl

end WholeNumeral

namespace Surface

open Lowering (lower NumbersRead)

/-- A whole number as the value of an option is lowered to what it is read as. -/
theorem OptionValue.lower_whole {v : OptionValue} (hkind : v.token.kind = .number)
    {n : WholeNumeral} (hlexeme : v.token.lexeme.toList = n.text) :
    lower v.tree = .ok (.number n.reading) := by
  have hnumber : Lowering.numberValue? v.token.lexeme = some n.reading := by
    rw [← n.numberValue?_text, ← hlexeme, String.ofList_toList]
  have hread : NumbersRead [v.token] := by
    intro t ht _
    rw [List.mem_singleton.mp ht, hnumber]
    rfl
  rw [Lowering.lower_optionValue_tree hread]
  cases v with
  | number t =>
      have hread : Lowering.numberValue? t.token.lexeme = some n.reading := hnumber
      rw [OptionValue.value, hread, Option.getD_some]
  | regex t | doubleQuoted t | singleQuoted t => cases t.kind_eq.symm.trans hkind
  | true t | false t | name t => cases t.kind_eq.symm.trans hkind

/-- The numbers without a point among the options in token sections are lowered to whole
numbers, or if they are too long for that, to the nearest numbers of the double format. -/
def Derivation.WholeNumbersRead (d : Derivation) : Prop :=
  ∀ declaration ∈ d.sectionDeclarations, ∀ o ∈ declaration.options.entries,
    o.value.token.kind = .number → '.' ∉ o.value.token.lexeme.toList →
      ∃ n : WholeNumeral, o.value.token.lexeme.toList = n.text ∧
        (n.digits.length ≤ maxIntegerDigits → lower o.value.tree = .ok (.number (.int n.value))) ∧
        (maxIntegerDigits < n.digits.length →
          lower o.value.tree = .ok (.number (.float (.ofDecimal n.negative n.magnitude 0))))

theorem Derivation.wholeNumbersRead {d : Derivation} (h : NumeralTokens d.tokens) :
    d.WholeNumbersRead := by
  intro declaration hdeclaration o ho hkind hpoint
  have htoken := mem_tokens_of_option hdeclaration ho
  obtain ⟨n, hn⟩ := WholeNumeral.exists_of_isNumeral (h _ htoken hkind) hpoint
  have hlower := OptionValue.lower_whole hkind hn
  refine ⟨n, hn, fun hlength => ?_, fun hlength => ?_⟩
  · rwa [WholeNumeral.reading, if_pos hlength] at hlower
  · rwa [WholeNumeral.reading, if_neg (Nat.not_le.mpr hlength)] at hlower

end Surface

/-- Every text that is parsed is lowered, and a number without a point that is the value of an
option in a token section is the exact whole number if it has at most `maxIntegerDigits`
digits, zeros on the left included. Only if it has more, it is rounded. -/
theorem lowerText_wholeNumbers {text : String} {t : Tree} (h : Document.parse text = .ok t) :
    ∃ (scan : Scan) (d : Surface.Derivation) (fields : List Value),
      Scan.ofChars text.toList = .ok scan ∧ d.tokens = scan.tokens ∧ d.tree = t ∧
        lowerText text = .ok (.grammar fields) ∧ d.Becomes fields ∧ d.WholeNumbersRead := by
  obtain ⟨scan, d, hscan, htokens, htree⟩ := Surface.exists_derivation_of_parse h
  refine ⟨scan, d, _, hscan, htokens, htree, lowerText_eq_ok hscan htokens,
    Surface.Derivation.becomes_of_scan hscan htokens, ?_⟩
  apply Surface.Derivation.wholeNumbersRead
  rw [htokens]
  exact fun t ht hkind => Scan.isNumeral_lexeme hscan ht hkind

/-- A negative number with zeros on the left, and zero with a sign. -/
def signedText : String := "tokens\x7bT:\x7ba:-007,b:-0\x7d\x7d"

/-- The fields of its grammar. -/
def signedFields : List Value :=
  [.tokenSection [.tokenDef (.string "T")
    [(.data (.string "a"), .number (.int (-7))), (.data (.string "b"), .number (.int 0))]]
    (.string "tokens")]

theorem lowerText_wholeNumbers_signed :
    ∃ (t : Tree) (scan : Scan) (d : Surface.Derivation),
      Document.parse signedText = .ok t ∧ Scan.ofChars signedText.toList = .ok scan ∧
        d.tokens = scan.tokens ∧ d.tree = t ∧ lowerText signedText = .ok (.grammar signedFields) ∧
        d.Becomes signedFields ∧ d.WholeNumbersRead := by
  have hlower : (Document.parse signedText).map Lowering.lower =
      .ok (.ok (.grammar signedFields)) := by
    cbv
  obtain ⟨t, ht, -⟩ := exists_of_map_eq_ok hlower
  obtain ⟨scan, d, fields, hscan, htokens, htree, htext, hbecomes, hread⟩ :=
    lowerText_wholeNumbers ht
  have heq := fields_eq_of_lower htext hlower
  exact ⟨t, scan, d, ht, hscan, htokens, htree, heq ▸ htext, heq ▸ hbecomes, hread⟩

/-! ## Too many digits -/

/-- A whole number in writing is one token. -/
theorem WholeNumeral.isLexeme_text (n : WholeNumeral) :
    IsLexeme .number (String.ofList n.text) := by
  have hnumber : ∀ sign, Piece.number sign n.digits = ⟨.token .number, sign ++ n.digits, []⟩ := by
    intro sign
    rw [Piece.number, Sequence.takeWhile_of_forall n.all_digits,
      Sequence.dropWhile_of_forall n.all_digits]
    rfl
  have hfirst : ∀ c more, isAsciiDigit c →
      Piece.first? (c :: more) = some (Piece.number [] (c :: more)) := by
    intro c more hc
    refine forall_isAsciiDigit (p := fun c => Piece.first? (c :: more) =
      some (Piece.number [] (c :: more))) ?_ hc
    intro v
    fin_cases v <;> rfl
  obtain ⟨c, more, hdigits⟩ := List.exists_cons_of_ne_nil n.digits_ne_nil
  have hc : isAsciiDigit c := n.all_digits c (hdigits ▸ List.mem_cons_self)
  rw [IsLexeme, String.toList_ofList, text, sign]
  by_cases hnegative : n.negative
  · have hminus : Piece.first? ('-' :: n.digits) =
        if n.digits.head?.any isAsciiDigit then some (Piece.number ['-'] n.digits) else none := rfl
    rw [if_pos hnegative, List.singleton_append, hminus, hnumber, if_pos]
    · rfl
    · rw [hdigits]
      exact hc
  · rw [if_neg hnegative, List.nil_append, hdigits, hfirst c more hc, ← hdigits, hnumber]
    rfl

/-- The least whole number that is none of the double format, with as many zeros in front of it
as a whole number may have digits. -/
def overlong : WholeNumeral where
  negative := false
  digits := List.replicate maxIntegerDigits '0' ++ Decimal.digitsOf 9007199254740993
  digits_ne_nil := List.append_ne_nil_of_right_ne_nil _ (digitsOf_ne_nil _)
  all_digits := isAsciiDigit_of_mem_padded

theorem overlong_magnitude : overlong.magnitude = 9007199254740993 :=
  overlong.natOfDigits_digits.symm.trans (natOfDigits_padded _ _)

theorem overlong_length : ¬ overlong.digits.length ≤ maxIntegerDigits := by
  have hpos := List.length_pos_iff.mpr (digitsOf_ne_nil 9007199254740993)
  rw [overlong, List.length_append, List.length_replicate]
  omega

/-- With too many digits a whole number becomes the nearest one of the double format, here one
less than it denotes. -/
theorem lowerText_not_whole :
    overlong.value = 9007199254740993 ∧
      lowerText (Value.numberText (String.ofList overlong.text)) =
        .ok (Value.oneOption (.number (.float (.finite false 0x10000000000000 1)))) ∧
      lowerText (Value.numberText (String.ofList overlong.text)) ≠
        .ok (Value.oneOption (.number (.int overlong.value))) := by
  have hvalue : overlong.value = 9007199254740993 := by
    rw [WholeNumeral.value, overlong_magnitude]
    rfl
  have hdouble : Double.ofDecimal false 9007199254740993 0 =
      .finite false 0x10000000000000 1 := by
    decide +kernel
  have hreading : overlong.reading = .float (.finite false 0x10000000000000 1) := by
    rw [WholeNumeral.reading, if_neg overlong_length, overlong_magnitude]
    exact congrArg Json.float hdouble
  have hlower := lowerText_numberText overlong.isLexeme_text overlong.numberValue?_text
  rw [hreading] at hlower
  refine ⟨hvalue, hlower, ?_⟩
  rw [hlower]
  simp [Value.oneOption]

end Rulebook
