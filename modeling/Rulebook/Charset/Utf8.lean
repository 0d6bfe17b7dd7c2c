import Rulebook.Charset.Basic

/-! # UTF-8

A character takes one to four bytes. The first byte says how many bytes follow
and, so that every character has one form only and no surrogate has any, within
which bounds the second byte stands. The bytes that follow carry six bits each.
-/

namespace Rulebook.Charset.Utf8

/-- What the first byte of a character announces: the leading bits of the code
point, how many bytes follow, and the bounds of the next byte. -/
structure Lead where
  bits : Nat
  tails : Nat
  least : Nat
  greatest : Nat
  deriving Repr, DecidableEq

/-- What a byte announces as the first of a character. -/
def lead? (byte : UInt8) : Option Lead :=
  let b := byte.toNat
  if b < 0x80 then some ⟨b, 0, 0x80, 0xbf⟩
  else if b < 0xc2 then none
  else if b < 0xe0 then some ⟨b - 0xc0, 1, 0x80, 0xbf⟩
  else if b < 0xf0 then
    some ⟨b - 0xe0, 2, if b = 0xe0 then 0xa0 else 0x80, if b = 0xed then 0x9f else 0xbf⟩
  else if b < 0xf5 then
    some ⟨b - 0xf0, 3, if b = 0xf0 then 0x90 else 0x80, if b = 0xf4 then 0x8f else 0xbf⟩
  else none

/-- Reads the bytes that follow the first one. The value is the code point. -/
def readTails (lead : Lead) (rest : List UInt8) :
    Except Fault (Reading UInt8 Nat (rest.length + 1)) :=
  match lead with
  | ⟨bits, 0, _, _⟩ => .ok ⟨bits, rest, Nat.lt_succ_self _⟩
  | ⟨bits, tails + 1, least, greatest⟩ =>
      match rest with
      | [] => .error .endOfData
      | byte :: more =>
          if least ≤ byte.toNat && byte.toNat ≤ greatest then
            match readTails ⟨bits * 64 + (byte.toNat - 0x80), tails, 0x80, 0xbf⟩ more with
            | .error fault => .error fault
            | .ok r => .ok (r.weaken (Nat.le_succ _))
          else .error .continuationByte
termination_by rest.length

/-- Reads one character. -/
def reader : Reader := fun first rest =>
  match lead? first with
  | none => .error .startByte
  | some lead =>
      match readTails lead rest with
      | .error fault => .error fault
      | .ok r => .ok (r.map Char.ofNat)

/-- A text without the mark in front of it, if it has one. -/
def withoutMark : List UInt8 → List UInt8
  | 0xef :: 0xbb :: 0xbf :: rest => rest
  | bytes => bytes

end Rulebook.Charset.Utf8
