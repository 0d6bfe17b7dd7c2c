import Rulebook.Charset.Decode
import Rulebook.Proofs.Charset.Utf16
import Rulebook.Proofs.Charset.Utf8

/-! # Where decoding fails

Every character set has a code for the bytes of a file. Decoding fails at the first byte
that cannot be decoded in that code; the offset that it tells counts from behind the mark
that it drops.
-/

namespace Rulebook.Charset

/-! ## One byte a character -/

namespace SingleByte

/-- The code in which each byte stands for the character that it is given. -/
def code (charOf : UInt8 → Except Fault Char) : Code := fun c piece =>
  ∃ byte, charOf byte = .ok c ∧ piece = [byte]

theorem reads_reader_iff {charOf : UInt8 → Except Fault Char} {first : UInt8}
    {rest more : List UInt8} {c : Char} :
    Reads (reader charOf first rest) c more ↔ charOf first = .ok c ∧ rest = more := by
  unfold reader
  cases charOf first with
  | error fault => simp
  | ok d => simp

theorem follows (charOf : UInt8 → Except Fault Char) : (reader charOf).Follows (code charOf) := by
  refine ⟨?_, ?_⟩
  · intro first rest c more
    rw [reads_reader_iff]
    constructor
    · rintro ⟨hfirst, rfl⟩
      exact ⟨[first], ⟨first, hfirst, rfl⟩, rfl⟩
    · rintro ⟨_, ⟨byte, hbyte, rfl⟩, heq⟩
      obtain ⟨rfl, rfl⟩ := List.cons.inj heq
      exact ⟨hbyte, rfl⟩
  · rintro c _ ⟨byte, -, rfl⟩
    exact List.cons_ne_nil _ _

end SingleByte

/-! ## Files -/

/-- The code in which the bytes of a file are to be read. -/
def code (charset : Charset) (bytes : List UInt8) : Code :=
  match charset with
  | utf8 => Utf8.code
  | utf16 => Utf16.code (Utf16.byteOrder bytes).1
  | utf16LittleEndian => Utf16.code .littleEndian
  | utf16BigEndian => Utf16.code .bigEndian
  | ascii => SingleByte.code SingleByte.ascii
  | latin1 => SingleByte.code SingleByte.latin1
  | windows1252 => SingleByte.code SingleByte.windows1252

/-- The mark in front of a file that is dropped before the rest is decoded, so that it is
not counted. -/
def droppedMark (charset : Charset) (bytes : List UInt8) : List UInt8 :=
  if charset = utf8 ∧ Utf8.mark <+: bytes then Utf8.mark else []

theorem droppedMark_of_ne {charset : Charset} (h : charset ≠ utf8) (bytes : List UInt8) :
    charset.droppedMark bytes = [] := if_neg fun hmark => h hmark.1

/-- What is dropped and what is decoded make up the file. -/
theorem droppedMark_append_withoutMark (bytes : List UInt8) :
    utf8.droppedMark bytes ++ Utf8.withoutMark bytes = bytes ∧
      ∃ text, Spells Utf8.code text (utf8.droppedMark bytes) := by
  by_cases hmark : Utf8.mark <+: bytes
  · obtain ⟨rest, rfl⟩ := hmark
    rw [droppedMark, if_pos ⟨rfl, List.prefix_append _ _⟩, Utf8.withoutMark_append_mark]
    exact ⟨rfl, _, Utf8.spells_mark⟩
  · rw [droppedMark, if_neg fun h => hmark h.2, Utf8.withoutMark_eq_self hmark]
    exact ⟨rfl, [], .nil⟩

/-- Decoding fails at the first byte that cannot be decoded, and counts from behind the
mark that was dropped. -/
theorem firstUndecodable_of_decode {charset : Charset} {bytes : List UInt8} {e : Undecodable}
    (h : charset.decode bytes = .error e) :
    FirstUndecodable (charset.code bytes) bytes
      (e.offset + (charset.droppedMark bytes).length) := by
  have hplain : ∀ {reader : Reader} {code : Code}, charset ≠ utf8 → reader.Follows code →
      reader.readAll 0 bytes = .error e →
      FirstUndecodable code bytes (e.offset + (charset.droppedMark bytes).length) := by
    intro reader code hcharset hreader hread
    have hfirst := (hreader.firstUndecodable .nil hread).2
    rw [List.nil_append, List.length_nil, Nat.zero_add, Nat.sub_zero] at hfirst
    rwa [droppedMark_of_ne hcharset]
  cases charset with
  | utf8 =>
      obtain ⟨happend, text, htext⟩ := droppedMark_append_withoutMark bytes
      have hfirst := (Utf8.follows.firstUndecodable htext h).2
      rwa [happend, Nat.sub_zero, Nat.add_comm] at hfirst
  | utf16 =>
      obtain ⟨mark, text, happend, hlength, htext⟩ := Utf16.exists_spells_mark bytes
      have hread : (Utf16.reader (Utf16.byteOrder bytes).1).readAll (Utf16.byteOrder bytes).2.1
          (Utf16.byteOrder bytes).2.2 = .error e := h
      obtain ⟨hle, hfirst⟩ := (Utf16.follows _).firstUndecodable htext hread
      rw [← happend, hlength, Nat.add_sub_cancel' hle] at hfirst
      rwa [droppedMark_of_ne (by decide)]
  | utf16LittleEndian => exact hplain (by decide) (Utf16.follows .littleEndian) h
  | utf16BigEndian => exact hplain (by decide) (Utf16.follows .bigEndian) h
  | ascii => exact hplain (by decide) (SingleByte.follows SingleByte.ascii) h
  | latin1 => exact hplain (by decide) (SingleByte.follows SingleByte.latin1) h
  | windows1252 => exact hplain (by decide) (SingleByte.follows SingleByte.windows1252) h

end Rulebook.Charset
