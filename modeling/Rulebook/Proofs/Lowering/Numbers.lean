import Rulebook.Proofs.Json.RoundTrip
import Rulebook.Proofs.Lowering.Fields
import Rulebook.Proofs.Token.Scan

/-! # Numbers in tokens

A number as the scanner takes it always has a value: it is read as a whole
number or, with a point or too many digits, as one of the double format. So
nothing that is parsed is in the way of lowering.
-/

namespace Rulebook

open Text Numeral

theorem IsNumeral.forall_char {p : Char → Prop} (hdigit : ∀ v : Fin 10, p (Nat.digitChar v))
    (hpoint : p '.') (hminus : p '-') {text : List Char} (h : IsNumeral text) :
    ∀ c ∈ text, p c := by
  have hunsigned : ∀ n : UnsignedNumeral, ∀ c ∈ n.text, p c := by
    intro n c hc
    rcases List.mem_append.mp hc with hwhole | hfraction
    · exact forall_isAsciiDigit hdigit (n.whole_digits c hwhole)
    · cases hn : n.fraction with
      | none =>
          rw [hn] at hfraction
          cases hfraction
      | some digits =>
          rw [hn] at hfraction
          rcases List.mem_cons.mp hfraction with rfl | hmem
          · exact hpoint
          · exact forall_isAsciiDigit hdigit (n.fraction_digits digits hn c hmem)
  intro c hc
  cases h with
  | unsigned n => exact hunsigned n c hc
  | negative n =>
      rcases List.mem_cons.mp hc with rfl | hmem
      · exact hminus
      · exact hunsigned n c hmem

namespace Numeral

theorem strip_of_forall {text : List Char} (h : ∀ c ∈ text, isMargin c = false) :
    strip text = text := by
  have hstop : ∀ {xs : List Char}, (∀ c ∈ xs, isMargin c = false) → xs.dropWhile isMargin = xs :=
    fun hxs => Sequence.dropWhile_of_stopsBefore fun c hc => hxs c (List.mem_of_mem_head? hc)
  rw [strip, hstop h, hstop (fun c hc => h c (List.mem_reverse.mp hc)), List.reverse_reverse]

theorem joinDigits_of_forall {text : List Char} (h : ∀ c ∈ text, c ≠ '_') (afterDigit : Bool) :
    joinDigits afterDigit text = some text := by
  induction text generalizing afterDigit with
  | nil => cases afterDigit <;> rfl
  | cons c rest ih =>
      have hc : c ≠ '_' := h c List.mem_cons_self
      have hrest := ih fun d hd => h d (List.mem_cons_of_mem _ hd)
      unfold joinDigits
      split
      · contradiction
      · next heq => exact absurd (List.cons.inj heq).1 hc
      · next heq =>
          obtain ⟨rfl, rfl⟩ := List.cons.inj heq
          rw [hrest]
          rfl

theorem normalize_of_isNumeral {text : List Char} (h : IsNumeral text) :
    normalize text = some text := by
  have hmargin := h.forall_char (p := fun c => isMargin c = false) (by decide) (by decide) (by decide)
  have hascii := h.forall_char (p := fun c => toAscii c = c) (by decide) (by decide) (by decide)
  have hjoined := h.forall_char (p := fun c => c ≠ '_') (by decide) (by decide) (by decide)
  have hmap : text.map toAscii = text := (List.map_congr_left hascii).trans (List.map_id' text)
  rw [normalize, strip_of_forall hmargin, hmap, joinDigits_of_forall hjoined]

theorem splitSign_unsigned (n : UnsignedNumeral) : splitSign n.text = (false, n.text) := by
  obtain ⟨c, more, hwhole⟩ := List.exists_cons_of_ne_nil n.whole_ne_nil
  have hc : isAsciiDigit c := n.whole_digits c (by rw [hwhole]; exact List.mem_cons_self)
  have htext : n.text = c :: (more ++ pointText n.fraction) := by
    rw [UnsignedNumeral.text, hwhole]
    rfl
  rw [htext]
  unfold splitSign
  split
  · next heq =>
      obtain ⟨rfl, -⟩ := List.cons.inj heq
      cases hc
  · next heq =>
      obtain ⟨rfl, -⟩ := List.cons.inj heq
      cases hc
  · rfl

theorem splitFraction_pointText {point : Option (List Char)}
    (h : ∀ digits ∈ point, ∀ c ∈ digits, isAsciiDigit c) :
    splitFraction (pointText point) = (point.getD [], []) := by
  cases point with
  | none => rfl
  | some digits =>
      have hdigits := h digits rfl
      rw [pointText, splitFraction, Sequence.takeWhile_of_forall hdigits,
        Sequence.dropWhile_of_forall hdigits]
      rfl

/-- No digits spell one of the names for what is not finite. -/
theorem lower_ne_name (n : UnsignedNumeral) (name : String) {c : Char} {more : List Char}
    (hname : name.toList = c :: more) (hc : ∀ v : Fin 10, (Nat.digitChar v).toLower ≠ c) :
    String.ofList (n.text.map Char.toLower) ≠ name := by
  intro heq
  obtain ⟨d, digits, hwhole⟩ := List.exists_cons_of_ne_nil n.whole_ne_nil
  have hd : isAsciiDigit d := n.whole_digits d (by rw [hwhole]; exact List.mem_cons_self)
  have hlist := congrArg String.toList heq
  rw [String.toList_ofList, hname, UnsignedNumeral.text, hwhole, List.cons_append,
    List.map_cons] at hlist
  exact forall_isAsciiDigit (p := fun d => d.toLower ≠ c) hc hd (List.cons.inj hlist).1

/-- A number in writing is read as the decimal of its digits, with the places behind the point
that it has. -/
theorem double?_of_splitSign {text : List Char} (h : IsNumeral text) {negative : Bool}
    {n : UnsignedNumeral} (hsign : splitSign text = (negative, n.text)) :
    double? text = some (.ofDecimal negative (natOfDigits (n.whole ++ n.fraction.getD []))
      (0 - (n.fraction.getD []).length)) := by
  have hwhole : n.text.takeWhile isAsciiDigit = n.whole ∧
      n.text.dropWhile isAsciiDigit = pointText n.fraction := by
    have hstop : Sequence.StopsBefore isAsciiDigit (pointText n.fraction) := by
      cases n.fraction with
      | none => exact Sequence.stopsBefore_nil _
      | some digits => exact Sequence.stopsBefore_cons.mpr rfl
    exact ⟨Sequence.takeWhile_append n.whole_digits hstop,
      Sequence.dropWhile_append n.whole_digits hstop⟩
  have hinf := lower_ne_name n "inf" rfl (by decide)
  have hinfinity := lower_ne_name n "infinity" rfl (by decide)
  have hnan := lower_ne_name n "nan" rfl (by decide)
  have hempty : n.whole.isEmpty = false := by
    rw [List.isEmpty_eq_false_iff]
    exact n.whole_ne_nil
  simp only [double?, normalize_of_isNumeral h, Option.bind_eq_bind, Option.bind_some, hsign,
    hinf, hinfinity, hnan, decide_false, Bool.or_self, Bool.false_eq_true, if_false, hwhole.1,
    hwhole.2, splitFraction_pointText n.fraction_digits, hempty, Bool.false_and, exponent?]

/-- A number in writing is read as a decimal of the double format. -/
theorem exists_ofDecimal_of_isNumeral {text : List Char} (h : IsNumeral text) :
    ∃ negative digits power, double? text = some (.ofDecimal negative digits power) := by
  cases h with
  | unsigned n =>
      exact ⟨_, _, _, double?_of_splitSign (.unsigned n) (splitSign_unsigned n)⟩
  | negative n => exact ⟨_, _, _, double?_of_splitSign (.negative n) rfl⟩

/-- A whole number is read from at most as many digits as can be read. -/
theorem isReadable_of_integer? {text : List Char} {i : Int} (h : integer? text = some i) :
    Json.IsReadable i := by
  obtain ⟨normal, -, h⟩ := Option.bind_eq_some_iff.mp h
  simp only at h
  split at h
  · cases h
  · next hdigits =>
      simp only [Bool.or_eq_true, Bool.not_eq_true', decide_eq_true_eq, not_or, not_lt,
        Bool.not_eq_true, List.isEmpty_eq_false_iff, Bool.not_eq_false, List.all_eq_true] at hdigits
      obtain ⟨⟨hne, hall⟩, hlength⟩ := hdigits
      cases h
      have habs : ∀ (negative : Bool) (n : Nat), (if negative then -(n : Int) else n).natAbs = n := by
        intro negative n
        cases negative <;> simp
      rw [Json.IsReadable, habs]
      exact (length_digitsOf_natOfDigits_le hall hne).trans hlength

end Numeral

namespace Lowering

/-- The tokens of a scan for numbers all read as numbers. -/
theorem numbersRead_scan {text : List Char} {scan : Scan} (h : Scan.ofChars text = .ok scan) :
    NumbersRead scan.tokens := by
  intro t ht hkind
  have hnumeral := Scan.isNumeral_lexeme h ht hkind
  unfold numberValue?
  split
  · rfl
  · obtain ⟨negative, digits, power, hdouble⟩ := exists_ofDecimal_of_isNumeral hnumeral
    rw [hdouble]
    rfl

end Lowering

end Rulebook
