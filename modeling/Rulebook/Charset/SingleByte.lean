import Rulebook.Charset.Basic

/-! # Character sets of one byte a character -/

namespace Rulebook.Charset.SingleByte

/-- The reader of a character set that gives each byte a character, or a reason
why it has none. -/
def reader (charOf : UInt8 → Except Fault Char) : Reader := fun first rest =>
  match charOf first with
  | .error fault => .error fault
  | .ok c => .ok ⟨c, rest, Nat.lt_succ_self _⟩

/-- The character whose code point is the byte. -/
def latin1 (byte : UInt8) : Except Fault Char := .ok (Char.ofNat byte.toNat)

/-- The character whose code point is the byte, which is below 128. -/
def ascii (byte : UInt8) : Except Fault Char :=
  if byte.toNat < 0x80 then .ok (Char.ofNat byte.toNat) else .error .aboveAscii

/-- The characters that stand in Windows-1252 for the bytes from 0x80 on, where
Latin-1 has controls. -/
def windows1252Row : List (Option Char) :=
  [
    some '€', none, some '‚', some 'ƒ', some '„', some '…', some '†', some '‡',
    some 'ˆ', some '‰', some 'Š', some '‹', some 'Œ', none, some 'Ž', none,
    none, some '‘', some '’', some '“', some '”', some '•', some '–', some '—',
    some '˜', some '™', some 'š', some '›', some 'œ', none, some 'ž', some 'Ÿ']

/-- The character of Windows-1252, which is that of Latin-1 outside its row. -/
def windows1252 (byte : UInt8) : Except Fault Char :=
  if byte.toNat < 0x80 then latin1 byte
  else match windows1252Row[byte.toNat - 0x80]? with
    | none => latin1 byte
    | some (some c) => .ok c
    | some none => .error .unassigned

end Rulebook.Charset.SingleByte
