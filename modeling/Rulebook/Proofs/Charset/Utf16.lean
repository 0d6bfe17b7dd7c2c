import Mathlib
import Rulebook.Charset.Utf16
import Rulebook.Proofs.Charset.Code

/-! # The code of UTF-16

A character takes one unit or two surrogates, and each unit takes two bytes in a given
order. The reader takes exactly the bytes of the units of a character.
-/

namespace Rulebook.Charset

namespace Utf16

/-- The two bytes of a unit. -/
def ByteOrder.bytes (order : ByteOrder) (unit : Nat) : List UInt8 :=
  match order with
  | littleEndian => [.ofNat unit, .ofNat (unit / 256)]
  | bigEndian => [.ofNat (unit / 256), .ofNat unit]

/-- The units of a code point: itself, or a high and a low surrogate. -/
def unitsOf (n : Nat) : List Nat :=
  if n < 0x10000 then [n]
  else [0xd800 + (n - 0x10000) / 0x400, 0xdc00 + (n - 0x10000) % 0x400]

/-- A character takes the bytes of its units. -/
def code (order : ByteOrder) : Code := fun c piece =>
  piece = (unitsOf c.toNat).flatMap order.bytes

theorem ByteOrder.unit_lt (order : ByteOrder) (a b : UInt8) : order.unit a b < 0x10000 := by
  have ha := a.toNat_lt
  have hb := b.toNat_lt
  cases order <;> simp only [unit] <;> omega

/-- Two bytes are the bytes of a unit exactly if it is the unit that they make. -/
theorem ByteOrder.bytes_eq_iff (order : ByteOrder) {unit : Nat} (h : unit < 0x10000) {a b : UInt8} :
    order.bytes unit = [a, b] ↔ order.unit a b = unit := by
  have ha := a.toNat_lt
  have hb := b.toNat_lt
  cases order <;>
    simp only [bytes, ByteOrder.unit, List.cons.injEq, and_true, ← UInt8.toNat_inj,
      UInt8.toNat_ofNat'] <;>
    omega

theorem ByteOrder.bytes_append_eq_iff (order : ByteOrder) {unit : Nat} (h : unit < 0x10000)
    {bytes more : List UInt8} :
    bytes = order.bytes unit ++ more ↔ ∃ a b, bytes = a :: b :: more ∧ order.unit a b = unit := by
  constructor
  · rintro rfl
    obtain ⟨a, b, hbytes⟩ : ∃ a b, order.bytes unit = [a, b] := by
      cases order <;> exact ⟨_, _, rfl⟩
    exact ⟨a, b, by rw [hbytes]; rfl, (order.bytes_eq_iff h).mp hbytes⟩
  · rintro ⟨a, b, rfl, hunit⟩
    rw [(order.bytes_eq_iff h).mpr hunit]
    rfl

theorem reads_readPair {order : ByteOrder} {high : Nat} {rest more : List UInt8} {c : Char} :
    Reads (readPair order high rest) c more ↔ ∃ a b, rest = a :: b :: more ∧
      isLowSurrogate (order.unit a b) ∧ Char.ofNat (pairCodePoint high (order.unit a b)) = c := by
  constructor
  · intro h
    unfold readPair at h
    split at h
    · next a b after =>
        dsimp only at h
        split at h
        · next hlow =>
            simp only [reads_ok] at h
            obtain ⟨hvalue, rfl⟩ := h
            exact ⟨a, b, rfl, hlow, hvalue⟩
        · exact absurd h not_reads_error
    · exact absurd h not_reads_error
  · rintro ⟨a, b, rfl, hlow, hvalue⟩
    rw [readPair, if_pos hlow]
    simp only [reads_ok, and_true]
    exact hvalue

theorem reads_reader {order : ByteOrder} {first : UInt8} {rest more : List UInt8} {c : Char} :
    Reads (reader order first rest) c more ↔ ∃ second after, rest = second :: after ∧
      ((isHighSurrogate (order.unit first second) ∧
          Reads (readPair order (order.unit first second) after) c more) ∨
        (isHighSurrogate (order.unit first second) = false ∧
          isLowSurrogate (order.unit first second) = false ∧
          Char.ofNat (order.unit first second) = c ∧ after = more)) := by
  cases rest with
  | nil => simp [reader]
  | cons second after =>
      rw [reader]
      constructor
      · intro h
        refine ⟨second, after, rfl, ?_⟩
        split at h
        · next hhigh =>
            split at h
            · exact absurd h not_reads_error
            · next r hr =>
                obtain ⟨hvalue, hrest⟩ := reads_ok.mp h
                refine .inl ⟨hhigh, ?_⟩
                rw [hr]
                exact reads_ok.mpr ⟨hvalue, hrest⟩
        · next hhigh =>
            split at h
            · exact absurd h not_reads_error
            · next hlow =>
                obtain ⟨hvalue, hrest⟩ := reads_ok.mp h
                exact .inr ⟨Bool.eq_false_iff.mpr hhigh, Bool.eq_false_iff.mpr hlow, hvalue, hrest⟩
      · rintro ⟨_, _, heq, hcase⟩
        obtain ⟨rfl, rfl⟩ := List.cons.inj heq
        rcases hcase with ⟨hhigh, h⟩ | ⟨hhigh, hlow, hvalue, rfl⟩
        · simp only [if_pos hhigh]
          rw [h.eq_ok]
          exact reads_ok.mpr ⟨rfl, rfl⟩
        · simp only [hhigh, hlow, Bool.false_eq_true, if_false]
          exact reads_ok.mpr ⟨hvalue, rfl⟩

theorem isHighSurrogate_iff {unit : Nat} :
    isHighSurrogate unit ↔ 0xd800 ≤ unit ∧ unit < 0xdc00 := by
  simp [isHighSurrogate]

theorem isLowSurrogate_iff {unit : Nat} :
    isLowSurrogate unit ↔ 0xdc00 ≤ unit ∧ unit < 0xe000 := by
  simp [isLowSurrogate]

/-- Two surrogates are the units of the code point that they make. -/
theorem unitsOf_pairCodePoint {high low : Nat} (hhigh : isHighSurrogate high)
    (hlow : isLowSurrogate low) :
    (pairCodePoint high low).isValidChar ∧ unitsOf (pairCodePoint high low) = [high, low] := by
  rw [isHighSurrogate_iff] at hhigh
  rw [isLowSurrogate_iff] at hlow
  unfold pairCodePoint unitsOf
  rw [if_neg (by omega)]
  refine ⟨.inr (by omega), ?_⟩
  rw [List.cons.injEq, List.cons.injEq]
  exact ⟨by omega, by omega, rfl⟩

/-- A code point with two units has a high and a low surrogate, which make it. -/
theorem exists_pair_of_le {n : Nat} (h : 0x10000 ≤ n) (hvalid : n.isValidChar) :
    ∃ high low, unitsOf n = [high, low] ∧ isHighSurrogate high ∧ isLowSurrogate low ∧
      pairCodePoint high low = n := by
  refine ⟨_, _, if_neg (by omega), ?_, ?_, ?_⟩
  · rw [isHighSurrogate_iff]
    omega
  · rw [isLowSurrogate_iff]
    omega
  · unfold pairCodePoint
    omega

theorem reads_reader_iff {order : ByteOrder} {first : UInt8} {rest more : List UInt8} {c : Char} :
    Reads (reader order first rest) c more ↔
      first :: rest = (unitsOf c.toNat).flatMap order.bytes ++ more := by
  have hvalid : c.toNat.isValidChar := c.valid
  rw [reads_reader]
  constructor
  · rintro ⟨second, after, rfl, ⟨hhigh, h⟩ | ⟨hhigh, hlow, rfl, rfl⟩⟩
    · obtain ⟨a, b, rfl, hlow, rfl⟩ := reads_readPair.mp h
      obtain ⟨hpair, hunits⟩ := unitsOf_pairCodePoint hhigh hlow
      rw [Char.toNat_ofNat, if_pos hpair, hunits, List.flatMap_cons, List.flatMap_singleton,
        List.append_assoc, order.bytes_append_eq_iff (order.unit_lt _ _)]
      refine ⟨first, second, ?_, rfl⟩
      rw [(order.bytes_eq_iff (order.unit_lt a b)).mpr rfl]
      rfl
    · have hlt := order.unit_lt first second
      rw [← Bool.not_eq_true, isHighSurrogate_iff] at hhigh
      rw [← Bool.not_eq_true, isLowSurrogate_iff] at hlow
      rw [Char.toNat_ofNat, if_pos (by omega), unitsOf, if_pos hlt, List.flatMap_singleton,
        order.bytes_append_eq_iff hlt]
      exact ⟨first, second, rfl, rfl⟩
  · intro h
    by_cases hlt : c.toNat < 0x10000
    · rw [unitsOf, if_pos hlt, List.flatMap_singleton, order.bytes_append_eq_iff hlt] at h
      obtain ⟨a, b, heq, hunit⟩ := h
      obtain ⟨rfl, rfl⟩ := List.cons.inj heq
      refine ⟨b, more, rfl, .inr ?_⟩
      rw [hunit, ← Bool.not_eq_true, isHighSurrogate_iff, ← Bool.not_eq_true, isLowSurrogate_iff]
      exact ⟨by omega, by omega, Char.ofNat_toNat c, rfl⟩
    · obtain ⟨high, low, hunits, hhigh, hlow, hpair⟩ :=
        exists_pair_of_le (Nat.le_of_not_lt hlt) hvalid
      have hhighlt : high < 0x10000 := by
        rw [isHighSurrogate_iff] at hhigh
        omega
      have hlowlt : low < 0x10000 := by
        rw [isLowSurrogate_iff] at hlow
        omega
      rw [hunits, List.flatMap_cons, List.flatMap_singleton, List.append_assoc,
        order.bytes_append_eq_iff hhighlt] at h
      obtain ⟨a, b, heq, rfl⟩ := h
      obtain ⟨rfl, rfl⟩ := List.cons.inj heq
      obtain ⟨a', b', hlowbytes, rfl⟩ := (order.bytes_append_eq_iff hlowlt).mp rfl
      refine ⟨b, _, rfl, .inl ⟨hhigh, reads_readPair.mpr ⟨a', b', hlowbytes, hlow, ?_⟩⟩⟩
      rw [hpair, Char.ofNat_toNat]

theorem follows (order : ByteOrder) : (reader order).Follows (code order) := by
  refine ⟨?_, ?_⟩
  · intro first rest c more
    rw [reads_reader_iff]
    constructor
    · intro h
      exact ⟨_, rfl, h⟩
    · rintro ⟨_, rfl, h⟩
      exact h
  · rintro c _ rfl
    unfold unitsOf
    split <;> cases order <;> exact List.cons_ne_nil _ _

/-- The mark that shows the order stands for a character itself, and it is counted. -/
theorem exists_spells_mark (bytes : List UInt8) :
    ∃ mark text, bytes = mark ++ (byteOrder bytes).2.2 ∧ mark.length = (byteOrder bytes).2.1 ∧
      Spells (code (byteOrder bytes).1) text mark := by
  unfold byteOrder
  split
  · exact ⟨[0xff, 0xfe], ['\ufeff'], rfl, rfl, .singleton rfl⟩
  · exact ⟨[0xfe, 0xff], ['\ufeff'], rfl, rfl, .singleton rfl⟩
  · exact ⟨[], [], rfl, rfl, .nil⟩

end Utf16

end Rulebook.Charset
