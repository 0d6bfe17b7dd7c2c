import Rulebook.Json.Reader
import Rulebook.Json.Writer
import Rulebook.Proofs.Reading

/-! # Strings in a data text

Each character is written so that it is read back by itself: as an escape of two
or six characters, or as it stands. No character is half of a surrogate pair, so
reading joins nothing.
-/

namespace Rulebook.Json

open Text

/-- How one character is written, by what the reader has to do with it. -/
inductive IsWritten (c : Char) : List Char → Prop
  | escape (e : Char) (quoted : escapedChar? e = some c) (short : e ≠ 'u') :
      IsWritten c ['\\', e]
  | code (small : c.toNat < 32) : IsWritten c ('\\' :: 'u' :: hexDigits 4 c.toNat)
  | plain (notQuote : c ≠ '"') (notEscape : c ≠ '\\') (large : 32 ≤ c.toNat) : IsWritten c [c]

theorem isWritten_writtenChar (c : Char) : IsWritten c (writtenChar c) := by
  unfold writtenChar
  split
  · next h =>
      rw [h]
      exact .escape '"' (by decide) (by decide)
  split
  · next h =>
      rw [h]
      exact .escape '\\' (by decide) (by decide)
  split
  · next h =>
      rw [h]
      exact .escape 'n' (by decide) (by decide)
  split
  · next h =>
      rw [h]
      exact .escape 'r' (by decide) (by decide)
  split
  · next h =>
      rw [h]
      exact .escape 't' (by decide) (by decide)
  split
  · next h =>
      rw [h]
      exact .escape 'b' (by decide) (by decide)
  split
  · next h =>
      rw [h]
      exact .escape 'f' (by decide) (by decide)
  split
  · next h => exact .code h
  · next hquote hescape _ _ _ _ _ h => exact .plain hquote hescape (by omega)

/-! ## The body of a string -/

/-- A character that is delimited as it stands. -/
def standsAlone (c : Char) : Bool := c ≠ '"' && c ≠ '\\' && isPlain c

theorem delimited_append_of_standsAlone {xs : List Char} (h : ∀ c ∈ xs, standsAlone c)
    (text : List Char) :
    delimited '"' isPlain (xs ++ text) =
      (delimited '"' isPlain text).map fun part => (xs ++ part.1, part.2) := by
  induction xs with
  | nil => simp
  | cons c rest ih =>
      have hc := h c List.mem_cons_self
      have hrest := ih fun d hd => h d (List.mem_cons_of_mem _ hd)
      simp only [standsAlone, ne_eq, decide_not, Bool.and_eq_true, Bool.not_eq_true',
        decide_eq_false_iff_not] at hc
      rw [List.cons_append, delimited.eq_def]
      simp only [if_neg hc.1.1, if_neg hc.1.2, if_pos hc.2, hrest]
      cases delimited '"' isPlain text <;> rfl

theorem delimited_escape (e : Char) (text : List Char) :
    delimited '"' isPlain ('\\' :: e :: text) =
      (delimited '"' isPlain text).map fun part => ('\\' :: e :: part.1, part.2) := by
  rw [delimited.eq_def]
  simp only [Char.reduceEq, if_false, if_true]
  cases delimited '"' isPlain text <;> rfl

/-- The digits of a control character, of which two are always zeros. -/
theorem hexDigits_of_lt {n : Nat} (h : n < 32) :
    hexDigits 4 n = ['0', '0', Nat.digitChar (n / 16), Nat.digitChar (n % 16)] :=
  (by decide : ∀ n : Fin 32,
    hexDigits 4 n = ['0', '0', Nat.digitChar (n / 16), Nat.digitChar (n % 16)]) ⟨n, h⟩

theorem hexValue?_digitChar {v : Nat} (h : v < 16) : hexValue? (Nat.digitChar v) = some v :=
  (by decide : ∀ v : Fin 16, hexValue? (Nat.digitChar v) = some v.val) ⟨v, h⟩

theorem standsAlone_digitChar {v : Nat} (h : v < 16) : standsAlone (Nat.digitChar v) :=
  (by decide : ∀ v : Fin 16, standsAlone (Nat.digitChar v)) ⟨v, h⟩

/-- A written character is taken into the body as a whole. -/
theorem delimited_isWritten {c : Char} {written : List Char} (h : IsWritten c written)
    (text : List Char) :
    delimited '"' isPlain (written ++ text) =
      (delimited '"' isPlain text).map fun part => (written ++ part.1, part.2) := by
  cases h with
  | escape e quoted short => exact delimited_escape e text
  | code small =>
      have hdigits : ∀ d ∈ hexDigits 4 c.toNat, standsAlone d := by
        rw [hexDigits_of_lt small]
        have hhigh := standsAlone_digitChar (show c.toNat / 16 < 16 by omega)
        have hlow := standsAlone_digitChar (show c.toNat % 16 < 16 by omega)
        simp only [List.mem_cons, List.not_mem_nil, or_false]
        rintro d (rfl | rfl | rfl | rfl)
        · decide
        · decide
        · exact hhigh
        · exact hlow
      rw [List.cons_append, List.cons_append, delimited_escape,
        delimited_append_of_standsAlone hdigits, Option.map_map]
      rfl
  | plain notQuote notEscape large =>
      refine delimited_append_of_standsAlone ?_ text
      intro d hd
      rw [List.mem_singleton.mp hd]
      simp [standsAlone, isPlain, notQuote, notEscape, large]

/-- A written character is read as its code point. -/
theorem codePoints?_isWritten {c : Char} {written : List Char} (h : IsWritten c written)
    (text : List Char) :
    codePoints? (written ++ text) = (codePoints? text).map (c.toNat :: ·) := by
  cases h with
  | escape e quoted short =>
      -- `u` would open a code of four digits, and no other letter does.
      rw [List.cons_append, List.cons_append, List.nil_append, codePoints?.eq_def]
      split
      · next heq => cases heq
      · next heq =>
          cases heq
          exact absurd rfl short
      · next heq =>
          cases heq
          rw [quoted]
          cases codePoints? text <;> rfl
      · next hescape heq =>
          cases heq
          exact (hescape _ _ rfl rfl).elim
  | code small =>
      have hhigh := hexValue?_digitChar (show c.toNat / 16 < 16 by omega)
      have hlow := hexValue?_digitChar (show c.toNat % 16 < 16 by omega)
      have hzero : hexValue? '0' = some 0 := by decide
      have hsum : 4096 * 0 + 256 * 0 + 16 * (c.toNat / 16) + c.toNat % 16 = c.toNat := by omega
      rw [hexDigits_of_lt small]
      simp only [List.cons_append, List.nil_append, codePoints?, hhigh, hlow, hzero,
        Option.bind_eq_bind, Option.bind_some, hsum]
      cases codePoints? text <;> rfl
  | plain notQuote notEscape large =>
      rw [List.singleton_append, codePoints?.eq_def]
      split
      · next heq => cases heq
      · next heq =>
          cases heq
          exact absurd rfl notEscape
      · next heq =>
          cases heq
          exact absurd rfl notEscape
      · next d tail _ _ heq =>
          cases heq
          rw [if_neg notEscape]
          cases codePoints? text <;> rfl

/-! ## Whole strings -/

theorem delimited_body (chars rest : List Char) :
    delimited '"' isPlain (chars.flatMap writtenChar ++ '"' :: rest) =
      some (chars.flatMap writtenChar, rest) := by
  induction chars with
  | nil => rw [List.flatMap_nil, List.nil_append, delimited.eq_def]; rfl
  | cons c more ih =>
      rw [List.flatMap_cons, List.append_assoc, delimited_isWritten (isWritten_writtenChar c), ih]
      rfl

theorem codePoints?_body (chars : List Char) :
    codePoints? (chars.flatMap writtenChar) = some (chars.map Char.toNat) := by
  induction chars with
  | nil => rfl
  | cons c more ih =>
      rw [List.flatMap_cons, codePoints?_isWritten (isWritten_writtenChar c), ih]
      rfl

theorem charOfCodePoint_toNat (c : Char) : charOfCodePoint c.toNat = c := by
  have hvalid : c.toNat.isValidChar := c.valid
  rw [charOfCodePoint, if_pos hvalid, Char.ofNat_toNat]

/-- No character is the first half of a surrogate pair. -/
theorem isHighSurrogate_toNat (c : Char) : isHighSurrogate c.toNat = false := by
  have hvalid : c.toNat < 0xd800 ∨ 0xdfff < c.toNat ∧ c.toNat < 0x110000 := c.valid
  rw [isHighSurrogate, Bool.and_eq_false_iff, decide_eq_false_iff_not, decide_eq_false_iff_not]
  omega

theorem joinSurrogates_map_toNat (chars : List Char) :
    joinSurrogates (chars.map Char.toNat) = chars := by
  induction chars with
  | nil => rfl
  | cons c more ih =>
      cases more with
      | nil => rw [List.map_singleton, joinSurrogates, charOfCodePoint_toNat]
      | cons d more =>
          rw [List.map_cons, List.map_cons, joinSurrogates, isHighSurrogate_toNat, Bool.false_and,
            if_neg Bool.false_ne_true, charOfCodePoint_toNat, ← List.map_cons, ih]

/-- A string is read back, whatever characters it has. -/
theorem reads_writtenString (s : String) (rest : List Char) :
    Reads (readString (s.toList.flatMap writtenChar ++ '"' :: rest)) s rest := by
  unfold readString
  split
  · next hnone => rw [delimited_body] at hnone; cases hnone
  · next body tail hbody =>
      rw [delimited_body] at hbody
      cases hbody
      rw [codePoints?_body]
      simp only [joinSurrogates_map_toNat, String.ofList_toList]
      exact reads_ok.mpr ⟨rfl, rfl⟩

end Rulebook.Json
