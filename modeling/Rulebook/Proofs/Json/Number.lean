import Rulebook.Json.Reader
import Rulebook.Json.Writer
import Rulebook.Proofs.Number.Decimal
import Rulebook.Proofs.Reading
import Rulebook.Proofs.Text.Digits

/-! # Numbers in a data text

A number is written with the parts that the reader splits it into, so each part
is found again, and the number with them: whole numbers digit by digit, and
numbers of the double format through their shortest decimal.
-/

namespace Rulebook.Json

open Text Numeral Decimal

/-! ## The parts of a number -/

/-- A character that a number may go on with. -/
def continuesNumber (c : Char) : Bool := isAsciiDigit c || c = '.' || c = 'e' || c = 'E'

/-- What comes next does not belong to a number. -/
abbrev EndsNumber (rest : List Char) : Prop := Sequence.StopsBefore continuesNumber rest

theorem EndsNumber.notDigit {rest : List Char} (h : EndsNumber rest) :
    Sequence.StopsBefore isAsciiDigit rest := by
  intro c hc
  have hnot := h c hc
  simp only [continuesNumber, Bool.or_eq_false_iff] at hnot
  exact hnot.1.1.1

/-- The minus sign of a negative number. -/
def minusText (negative : Bool) : List Char := if negative then ['-'] else []

/-- The exponent of a number, always with a sign. -/
def exponentPart : Option (Bool × List Char) → List Char
  | none => []
  | some (negative, digits) => 'e' :: (if negative then '-' else '+') :: digits

namespace NumberText

/-- The characters of a number. -/
def text (n : NumberText) : List Char :=
  minusText n.negative ++ n.whole ++ pointText n.fraction ++ exponentPart n.exponent

/-- The parts of a number as its grammar has them. -/
structure IsProper (n : NumberText) : Prop where
  whole_ne_nil : n.whole ≠ []
  whole_digits : ∀ c ∈ n.whole, isAsciiDigit c
  whole_head : n.whole = ['0'] ∨ n.whole.head? ≠ some '0'
  fraction_digits : ∀ digits ∈ n.fraction, digits ≠ [] ∧ ∀ c ∈ digits, isAsciiDigit c
  exponent_digits : ∀ e ∈ n.exponent, e.2 ≠ [] ∧ ∀ c ∈ e.2, isAsciiDigit c

end NumberText

theorem splitDigits_append {digits rest : List Char} (h : ∀ c ∈ digits, isAsciiDigit c)
    (hrest : Sequence.StopsBefore isAsciiDigit rest) :
    splitDigits (digits ++ rest) = (digits, rest) := by
  rw [splitDigits, Sequence.takeWhile_append h hrest, Sequence.dropWhile_append h hrest]

theorem splitWhole_append {whole rest : List Char} (h : ∀ c ∈ whole, isAsciiDigit c)
    (hne : whole ≠ []) (hhead : whole = ['0'] ∨ whole.head? ≠ some '0')
    (hrest : Sequence.StopsBefore isAsciiDigit rest) :
    splitWhole (whole ++ rest) = (whole, rest) := by
  rcases hhead with rfl | hhead
  · rfl
  · obtain ⟨c, more, rfl⟩ := List.exists_cons_of_ne_nil hne
    unfold splitWhole
    split
    · next heq =>
        rw [List.cons_append, List.cons.injEq] at heq
        exact absurd (congrArg some heq.1) hhead
    · exact splitDigits_append h hrest

theorem splitFraction?_append {fraction : Option (List Char)} {rest : List Char}
    (h : ∀ digits ∈ fraction, digits ≠ [] ∧ ∀ c ∈ digits, isAsciiDigit c)
    (hrest : Sequence.StopsBefore (fun c => isAsciiDigit c || c = '.') rest) :
    splitFraction? (pointText fraction ++ rest) = (fraction, rest) := by
  cases fraction with
  | none =>
      rw [pointText, List.nil_append]
      unfold splitFraction?
      split
      · next tail =>
          have hpoint := hrest '.' rfl
          simp at hpoint
      · rfl
  | some digits =>
      obtain ⟨hne, hdigits⟩ := h digits rfl
      have hstop : Sequence.StopsBefore isAsciiDigit rest := by
        intro c hc
        have hnot := hrest c hc
        rw [Bool.or_eq_false_iff] at hnot
        exact hnot.1
      rw [pointText, List.cons_append, splitFraction?]
      simp only [splitDigits_append hdigits hstop]
      rw [if_neg (by simpa using hne)]

theorem splitExponent?_append {exponent : Option (Bool × List Char)} {rest : List Char}
    (h : ∀ e ∈ exponent, e.2 ≠ [] ∧ ∀ c ∈ e.2, isAsciiDigit c) (hrest : EndsNumber rest) :
    splitExponent? (exponentPart exponent ++ rest) = (exponent, rest) := by
  cases exponent with
  | none =>
      rw [exponentPart, List.nil_append]
      cases rest with
      | nil => rfl
      | cons c tail =>
          have hnot := Sequence.stopsBefore_cons.mp hrest
          simp only [continuesNumber, Bool.or_eq_false_iff] at hnot
          simp [splitExponent?, hnot]
  | some e =>
      obtain ⟨negative, digits⟩ := e
      obtain ⟨hne, hdigits⟩ := h _ rfl
      have hsign : splitSign ((if negative then '-' else '+') :: (digits ++ rest)) =
          (negative, digits ++ rest) := by
        cases negative <;> rfl
      rw [exponentPart, List.cons_append, List.cons_append, splitExponent?]
      simp only [decide_true, Bool.true_or, if_true, hsign,
        splitDigits_append hdigits hrest.notDigit]
      rw [if_neg (by simpa using hne)]

theorem splitMinus_append (negative : Bool) {rest : List Char} (h : rest.head? ≠ some '-') :
    splitMinus (minusText negative ++ rest) = (negative, rest) := by
  cases negative with
  | true => rfl
  | false =>
      unfold splitMinus
      split
      · next tail heq =>
          rw [minusText, if_neg Bool.false_ne_true, List.nil_append] at heq
          exact absurd (congrArg List.head? heq) h
      · rfl

theorem stopsBefore_exponentPart (exponent : Option (Bool × List Char)) {rest : List Char}
    (hrest : EndsNumber rest) :
    Sequence.StopsBefore (fun c => isAsciiDigit c || c = '.') (exponentPart exponent ++ rest) := by
  cases exponent with
  | none =>
      intro c hc
      have hnot := hrest c hc
      simp only [continuesNumber, Bool.or_eq_false_iff] at hnot
      rw [Bool.or_eq_false_iff]
      exact hnot.1.1
  | some e => exact Sequence.stopsBefore_cons.mpr (by decide)

theorem stopsBefore_pointText (fraction : Option (List Char)) {rest : List Char}
    (hrest : Sequence.StopsBefore (fun c => isAsciiDigit c || c = '.') rest) :
    Sequence.StopsBefore isAsciiDigit (pointText fraction ++ rest) := by
  cases fraction with
  | none =>
      intro c hc
      have hnot := hrest c hc
      rw [Bool.or_eq_false_iff] at hnot
      exact hnot.1
  | some digits => exact Sequence.stopsBefore_cons.mpr (by decide)

/-- The parts of a number are read back, and with them its value. -/
theorem reads_number {n : NumberText} (h : n.IsProper) {rest : List Char} (hrest : EndsNumber rest)
    {j : Json} (hvalue : n.value = .ok j) : Reads (readNumber (n.text ++ rest)) j rest := by
  have hexponent := splitExponent?_append h.exponent_digits hrest
  have hfraction := splitFraction?_append h.fraction_digits
    (stopsBefore_exponentPart n.exponent hrest)
  have hwhole := splitWhole_append h.whole_digits h.whole_ne_nil h.whole_head
    (stopsBefore_pointText n.fraction
      (stopsBefore_exponentPart n.exponent hrest))
  have hunsigned : (n.whole ++ (pointText n.fraction ++ (exponentPart n.exponent ++ rest))).head? ≠
      some '-' := by
    obtain ⟨c, more, hc⟩ := List.exists_cons_of_ne_nil h.whole_ne_nil
    have hdigit : isAsciiDigit c := h.whole_digits c (by rw [hc]; exact List.mem_cons_self)
    rw [hc, List.cons_append, List.head?_cons]
    intro heq
    rw [Option.some.inj heq] at hdigit
    cases hdigit
  have hminus := splitMinus_append n.negative hunsigned
  have htext : n.text ++ rest = minusText n.negative ++
      (n.whole ++ (pointText n.fraction ++ (exponentPart n.exponent ++ rest))) := by
    simp only [NumberText.text, List.append_assoc]
  rw [htext]
  unfold readNumber
  simp only [hminus, hwhole, hfraction, hexponent]
  rw [dif_pos h.whole_ne_nil, hvalue]
  exact reads_ok.mpr ⟨rfl, rfl⟩

/-! ## Whole numbers -/

theorem head?_digitsOf (n : Nat) : digitsOf n = ['0'] ∨ (digitsOf n).head? ≠ some '0' := by
  rcases Nat.eq_zero_or_pos n with rfl | hpos
  · exact .inl rfl
  · exact .inr (head?_digitsOf_ne_zero hpos)

/-- The parts of a whole number. -/
def NumberText.ofInt (i : Int) : NumberText :=
  { negative := decide (i < 0), whole := digitsOf i.natAbs, fraction := none, exponent := none }

theorem isProper_ofInt (i : Int) : (NumberText.ofInt i).IsProper :=
  ⟨digitsOf_ne_nil _, isAsciiDigit_of_mem_digitsOf, head?_digitsOf _, by simp [NumberText.ofInt],
    by simp [NumberText.ofInt]⟩

theorem text_ofInt (i : Int) : (NumberText.ofInt i).text = writtenInt i := by
  by_cases hi : i < 0 <;>
    simp [NumberText.ofInt, NumberText.text, minusText, pointText, exponentPart, writtenInt, hi]

theorem value_ofInt {i : Int} (h : (digitsOf i.natAbs).length ≤ maxIntegerDigits) :
    (NumberText.ofInt i).value = .ok (.int i) := by
  have hsigned : (if i < 0 then -(i.natAbs : Int) else i.natAbs) = i := by
    split <;> omega
  simp only [NumberText.value, NumberText.ofInt, if_neg (not_lt.mpr h), natOfDigits_digitsOf,
    decide_eq_true_eq, hsigned]

/-! ## Numbers of the double format -/

/-- The power of ten that an exponent stands for. -/
def exponentValue : Option (Bool × List Char) → Int
  | none => 0
  | some (negative, digits) =>
      if negative then -(natOfDigits digits : Int) else natOfDigits digits

/-- A number with a fraction or an exponent is one of the double format. -/
theorem value_eq_float {n : NumberText} (h : n.fraction ≠ none ∨ n.exponent ≠ none) :
    n.value = .ok (.float (.ofDecimal n.negative (natOfDigits (n.whole ++ n.fraction.getD []))
      (exponentValue n.exponent - (n.fraction.getD []).length))) := by
  unfold NumberText.value
  split
  · next hfraction hexponent =>
      rcases h with h | h
      · exact absurd hfraction h
      · exact absurd hexponent h
  · cases n.exponent <;> rfl

variable {x : Decimal} {m : Nat} {q : Int}

/-- A number is written with the digits and the point of a decimal, and has the
value that the decimal reads as. -/
structure Writes (n : NumberText) (text : List Char) (x : Double) : Prop where
  proper : n.IsProper
  text_eq : n.text = text
  value_eq : n.value = .ok (.float x)

/-- Whatever has the digits and the power of a decimal is read as the decimal. -/
theorem writes_of_decimal (h : Decimal.ReadsAs x m q) {n : NumberText} (hproper : n.IsProper)
    (hfloat : n.fraction ≠ none ∨ n.exponent ≠ none)
    (hdigits : natOfDigits (n.whole ++ n.fraction.getD []) = x.digits)
    (hpower : exponentValue n.exponent - (n.fraction.getD []).length = x.power) :
    Writes n n.text (.finite n.negative m q) := by
  refine ⟨hproper, rfl, ?_⟩
  rw [value_eq_float hfloat, hdigits, hpower, h.value]

/-- The digits of an exponent in writing. -/
def writtenExponent (format : DoubleFormat) (e : Int) : List Char :=
  List.replicate (format.exponentDigits - (digitsOf e.natAbs).length) '0' ++ digitsOf e.natAbs

theorem exponentText_eq (format : DoubleFormat) (e : Int) :
    'e' :: format.exponentText e = exponentPart (some (decide (e < 0), writtenExponent format e)) := by
  simp [exponentPart, DoubleFormat.exponentText, writtenExponent]

theorem exponentValue_written (format : DoubleFormat) (e : Int) :
    exponentValue (some (decide (e < 0), writtenExponent format e)) = e := by
  simp only [exponentValue, writtenExponent, natOfDigits_padded, decide_eq_true_eq]
  split <;> omega

/-- One digit before the point, and an exponent. -/
theorem exists_writes_exponent (format : DoubleFormat) (h : Decimal.ReadsAs x m q)
    (negative : Bool) {d : Char} {more : List Char} (hdigits : digitsOf x.digits = d :: more)
    {e : Int} (he : e = more.length + x.power) :
    ∃ n, Writes n (minusText negative ++ (d :: pointText (if more = [] then none else some more) ++
        'e' :: format.exponentText e)) (.finite negative m q) := by
  have hall : ∀ c ∈ d :: more, isAsciiDigit c := by
    rw [← hdigits]
    exact isAsciiDigit_of_mem_digitsOf
  have hhead := head?_digitsOf_ne_zero h.pos
  rw [hdigits] at hhead
  let n : NumberText :=
    { negative, whole := [d], fraction := if more = [] then none else some more
      exponent := some (decide (e < 0), writtenExponent format e) }
  have hfraction : (if more = [] then none else some more : Option (List Char)).getD [] = more := by
    split
    · next hnil => rw [hnil]; rfl
    · rfl
  have hproper : n.IsProper := by
    refine ⟨List.cons_ne_nil _ _, ?_, .inr hhead, ?_, ?_⟩
    · intro c hc
      rw [List.mem_singleton.mp hc]
      exact hall d List.mem_cons_self
    · intro digits hmem
      by_cases hnil : more = []
      · simp [n, hnil] at hmem
      · simp only [n, if_neg hnil, Option.mem_def, Option.some.injEq] at hmem
        rw [← hmem]
        exact ⟨hnil, fun c hc => hall c (List.mem_cons_of_mem _ hc)⟩
    · intro written hmem
      cases hmem
      exact ⟨by simp [writtenExponent], isAsciiDigit_of_mem_padded⟩
  refine ⟨n, ?_⟩
  have htext : n.text = minusText negative ++ (d :: pointText (if more = [] then none else some more)
      ++ 'e' :: format.exponentText e) := by
    rw [exponentText_eq, NumberText.text]
    simp [n]
  rw [← htext]
  refine writes_of_decimal h hproper (.inr (Option.some_ne_none _)) ?_ ?_
  · rw [hfraction, ← natOfDigits_digitsOf x.digits, hdigits]
    rfl
  · rw [exponentValue_written, hfraction]
    omega

theorem natOfDigits_zero_cons (digits : List Char) :
    natOfDigits ('0' :: digits) = natOfDigits digits := rfl

/-- Zeros before all digits. -/
theorem exists_writes_below (h : Decimal.ReadsAs x m q) (negative : Bool) {zeros : Nat}
    (hpoint : (digitsOf x.digits).length + x.power = -(zeros : Int)) :
    ∃ n, Writes n (minusText negative ++
        ('0' :: '.' :: List.replicate zeros '0' ++ digitsOf x.digits)) (.finite negative m q) := by
  let n : NumberText :=
    { negative, whole := ['0'], fraction := some (List.replicate zeros '0' ++ digitsOf x.digits)
      exponent := none }
  have hproper : n.IsProper := by
    refine ⟨List.cons_ne_nil _ _, by simp [n]; decide, .inl rfl, ?_, by simp⟩
    intro digits hmem
    cases hmem
    exact ⟨by simp, isAsciiDigit_of_mem_padded⟩
  refine ⟨n, ?_⟩
  have htext : n.text = minusText negative ++
      ('0' :: '.' :: List.replicate zeros '0' ++ digitsOf x.digits) := by
    simp [NumberText.text, n, exponentPart, pointText]
  rw [← htext]
  refine writes_of_decimal h hproper (.inl (Option.some_ne_none _)) ?_ ?_
  · simp only [n, Option.getD_some, List.singleton_append, natOfDigits_zero_cons,
      natOfDigits_padded]
  · simp only [n, exponentValue, Option.getD_some, List.length_append, List.length_replicate]
    omega

/-- The point among the digits. -/
theorem exists_writes_within (h : Decimal.ReadsAs x m q) (negative : Bool) {point : Nat}
    (hpoint : (digitsOf x.digits).length + x.power = point) (hpos : 0 < point)
    (hlt : point < (digitsOf x.digits).length) :
    ∃ n, Writes n (minusText negative ++
        ((digitsOf x.digits).take point ++ '.' :: (digitsOf x.digits).drop point))
      (.finite negative m q) := by
  let n : NumberText :=
    { negative, whole := (digitsOf x.digits).take point
      fraction := some ((digitsOf x.digits).drop point), exponent := none }
  have hproper : n.IsProper := by
    refine ⟨?_, ?_, .inr ?_, ?_, by simp⟩
    · simp [n, hpos.ne']
    · exact fun c hc => isAsciiDigit_of_mem_digitsOf c (List.mem_of_mem_take hc)
    · rw [List.head?_take, if_neg hpos.ne']
      exact head?_digitsOf_ne_zero h.pos
    · intro digits hmem
      cases hmem
      refine ⟨?_, fun c hc => isAsciiDigit_of_mem_digitsOf c (List.mem_of_mem_drop hc)⟩
      rw [ne_eq, List.drop_eq_nil_iff]
      omega
  refine ⟨n, ?_⟩
  have htext : n.text = minusText negative ++
      ((digitsOf x.digits).take point ++ '.' :: (digitsOf x.digits).drop point) := by
    simp [NumberText.text, n, exponentPart, pointText]
  rw [← htext]
  refine writes_of_decimal h hproper (.inl (Option.some_ne_none _)) ?_ ?_
  · simp only [n, Option.getD_some, List.take_append_drop, natOfDigits_digitsOf]
  · simp only [n, exponentValue, Option.getD_some, List.length_drop]
    omega

/-- Zeros after all digits, and one more behind the point. -/
theorem exists_writes_above (h : Decimal.ReadsAs x m q) (negative : Bool) {zeros : Nat}
    (hpower : x.power = zeros) :
    ∃ n, Writes n (minusText negative ++
        (digitsOf x.digits ++ List.replicate zeros '0' ++ ['.', '0'])) (.finite negative m q) := by
  let n : NumberText :=
    { negative, whole := digitsOf x.digits ++ List.replicate zeros '0'
      fraction := some ['0'], exponent := none }
  have hproper : n.IsProper := by
    refine ⟨by simp [n], ?_, .inr ?_, ?_, by simp⟩
    · intro c hc
      rcases List.mem_append.mp hc with hdigit | hzero
      · exact isAsciiDigit_of_mem_digitsOf c hdigit
      · exact isAsciiDigit_of_mem_zeros c hzero
    · obtain ⟨d, more, hdigits⟩ := List.exists_cons_of_ne_nil (digitsOf_ne_nil x.digits)
      have hhead := head?_digitsOf_ne_zero h.pos
      simp only [n]
      rw [hdigits] at hhead ⊢
      exact hhead
    · intro digits hmem
      cases hmem
      exact ⟨List.cons_ne_nil _ _, by simp; decide⟩
  refine ⟨n, hproper, ?_, ?_⟩
  · simp [NumberText.text, n, exponentPart, pointText]
  · -- With the zeros in writing the digits are not those of the decimal, but their value is.
    have hdigits : natOfDigits (n.whole ++ n.fraction.getD []) = x.digits * 10 ^ zeros * 10 := by
      simp only [n, Option.getD_some, natOfDigits_append, natOfDigits_replicate_zero,
        natOfDigits_digitsOf, List.length_replicate, List.length_singleton, Nat.add_zero, pow_one]
      rfl
    have hexponent : exponentValue n.exponent - (n.fraction.getD []).length = -1 := rfl
    have hpos : 0 < x.digits * 10 ^ zeros * 10 := by
      have hdigits_pos := h.pos
      positivity
    have hvalue : ((x.digits * 10 ^ zeros * 10 : Nat) : ℚ) * 10 ^ (-1 : Int) =
        x.digits * 10 ^ x.power := by
      rw [hpower, zpow_natCast, zpow_neg_one, Nat.cast_mul, Nat.cast_mul, Nat.cast_pow,
        Nat.cast_ofNat, mul_inv_cancel_right₀ (by norm_num)]
    have hfloat : n.fraction ≠ none ∨ n.exponent ≠ none := .inl (Option.some_ne_none _)
    rw [value_eq_float hfloat, hdigits, hexponent,
      Double.ofDecimal_congr hpos h.pos hvalue, h.value]

/-- The digits of a decimal with its point are a number that reads as it. -/
theorem exists_writes_decimalText (format : DoubleFormat) (h : Decimal.ReadsAs x m q)
    (negative : Bool) :
    ∃ n, Writes n (minusText negative ++ format.decimalText (digitsOf x.digits)
        ((digitsOf x.digits).length + x.power)) (.finite negative m q) := by
  unfold DoubleFormat.decimalText
  split
  · obtain ⟨d, more, hdigits⟩ := List.exists_cons_of_ne_nil (digitsOf_ne_nil x.digits)
    obtain ⟨n, hn⟩ := exists_writes_exponent format h negative hdigits
      (show (digitsOf x.digits).length + x.power - 1 = more.length + x.power by
        rw [hdigits, List.length_cons]
        omega)
    refine ⟨n, ?_⟩
    rw [hdigits] at hn ⊢
    cases more with
    | nil => exact hn
    | cons d' more => exact hn
  split
  · next hpoint =>
      obtain ⟨zeros, hzeros⟩ := Int.eq_ofNat_of_zero_le
        (show 0 ≤ -((digitsOf x.digits).length + x.power) by omega)
      rw [hzeros, Int.toNat_natCast]
      exact exists_writes_below h negative (by omega)
  split
  · next hpos hlt =>
      obtain ⟨point, hpoint⟩ := Int.eq_ofNat_of_zero_le
        (show 0 ≤ (digitsOf x.digits).length + x.power by omega)
      rw [hpoint, Int.toNat_natCast]
      exact exists_writes_within h negative hpoint (by omega) (by omega)
  · next hpos hge =>
      obtain ⟨zeros, hzeros⟩ := Int.eq_ofNat_of_zero_le (show 0 ≤ x.power by omega)
      have hcount : ((digitsOf x.digits).length + x.power).toNat - (digitsOf x.digits).length =
          zeros := by omega
      rw [hcount]
      exact exists_writes_above h negative hzeros

/-- A finite number of the format is written as a number that reads back as it. -/
theorem exists_writes_finite {m : Nat} {q : Int} (h : Double.IsCanonical m q) (negative : Bool) :
    ∃ n, Writes n (DoubleFormat.data.write (.finite negative m q)) (.finite negative m q) := by
  rw [DoubleFormat.write]
  rcases Nat.eq_zero_or_pos m with rfl | hm
  · have hq : q = Double.minExponent := by
      rcases lt_or_eq_of_le h.least with hnormal | heq
      · exact absurd (h.normal hnormal) (by norm_num)
      · exact heq.symm
    rw [if_pos rfl, hq]
    refine ⟨⟨negative, ['0'], some ['0'], none⟩, ⟨?_, ?_, .inl rfl, ?_, by simp⟩, ?_, ?_⟩
    · exact List.cons_ne_nil _ _
    · simp
      decide
    · intro digits hmem
      cases hmem
      exact ⟨List.cons_ne_nil _ _, by simp; decide⟩
    · rw [NumberText.text, exponentPart, List.append_nil, List.append_assoc]
      rfl
    · rfl
  · rw [if_neg hm.ne']
    exact exists_writes_decimalText DoubleFormat.data (Decimal.readsAs_shortest h hm) negative

end Rulebook.Json
