import Rulebook.Charset.Basic

/-! # UTF-16

A character takes one unit of two bytes, or two units, which are a high and a
low surrogate. The order of the bytes of a unit is given, or shown by a mark in
front of the text.
-/

namespace Rulebook.Charset.Utf16

/-- The order of the two bytes of a unit. -/
inductive ByteOrder
  | littleEndian
  | bigEndian
  deriving Repr, DecidableEq

/-- The value of a unit. -/
def ByteOrder.unit (order : ByteOrder) (first second : UInt8) : Nat :=
  match order with
  | littleEndian => second.toNat * 256 + first.toNat
  | bigEndian => first.toNat * 256 + second.toNat

/-- The first of the two units of a character. -/
def isHighSurrogate (unit : Nat) : Bool := 0xd800 ≤ unit && unit < 0xdc00

/-- The second of the two units of a character. -/
def isLowSurrogate (unit : Nat) : Bool := 0xdc00 ≤ unit && unit < 0xe000

/-- The code point of two surrogates. -/
def pairCodePoint (high low : Nat) : Nat := 0x10000 + (high - 0xd800) * 0x400 + (low - 0xdc00)

/-- Reads the low surrogate after a high one. -/
def readPair (order : ByteOrder) (high : Nat) : (rest : List UInt8) →
    Except Fault (Reading UInt8 Char rest.length)
  | first :: second :: rest =>
      let low := order.unit first second
      if isLowSurrogate low then
        .ok ⟨Char.ofNat (pairCodePoint high low), rest, Nat.lt_succ_of_lt (Nat.lt_succ_self _)⟩
      else .error .surrogatePair
  | _ => .error .endOfData

/-- Reads one character. -/
def reader (order : ByteOrder) : Reader := fun first rest =>
  match rest with
  | [] => .error .truncated
  | second :: more =>
      let unit := order.unit first second
      if isHighSurrogate unit then
        match readPair order unit more with
        | .error fault => .error fault
        | .ok r => .ok (r.weaken (Nat.le_add_right _ 2))
      else if isLowSurrogate unit then .error .loneSurrogate
      else .ok ⟨Char.ofNat unit, more, Nat.lt_succ_of_lt (Nat.lt_succ_self _)⟩

/-- The order that the mark in front of a text shows, the length of the mark,
and the text after it. Without a mark the low byte comes first. -/
def byteOrder : List UInt8 → ByteOrder × Nat × List UInt8
  | 0xff :: 0xfe :: rest => (.littleEndian, 2, rest)
  | 0xfe :: 0xff :: rest => (.bigEndian, 2, rest)
  | bytes => (.littleEndian, 0, bytes)

end Rulebook.Charset.Utf16
