import Rulebook.Reading

/-! # Character sets

A character set says which characters the bytes of a file stand for. Bytes are
read one character at a time; where no character can be read, decoding stops
and names the place and the reason.
-/

namespace Rulebook

/-- The character sets. A mark of the byte order in front of a text is no part
of the text in `utf8` and in `utf16`. -/
inductive Charset
  | utf8
  | utf16
  | utf16LittleEndian
  | utf16BigEndian
  | ascii
  | latin1
  | windows1252
  deriving Repr, DecidableEq

namespace Charset

/-- Why bytes stand for no character. -/
inductive Fault
  | startByte
  | continuationByte
  | endOfData
  | truncated
  | surrogatePair
  | loneSurrogate
  | aboveAscii
  | unassigned
  deriving Repr, DecidableEq

/-- What is said about a fault. -/
def Fault.text : Fault → String
  | startByte => "invalid start byte"
  | continuationByte => "invalid continuation byte"
  | endOfData => "unexpected end of data"
  | truncated => "truncated data"
  | surrogatePair => "illegal UTF-16 surrogate"
  | loneSurrogate => "illegal encoding"
  | aboveAscii => "ordinal not in range(128)"
  | unassigned => "character maps to <undefined>"

/-- Bytes that stand for no character, and the number of bytes before them. -/
structure Undecodable where
  offset : Nat
  fault : Fault
  deriving Repr, DecidableEq

/-- Reads one character, whose first byte is given apart from what follows. -/
abbrev Reader := (first : UInt8) → (rest : List UInt8) →
  Except Fault (Reading UInt8 Char (rest.length + 1))

/-- The characters of some bytes, of which the first has the given offset. -/
def Reader.readAll (reader : Reader) (offset : Nat) (bytes : List UInt8) :
    Except Undecodable (List Char) :=
  match bytes with
  | [] => .ok []
  | first :: rest =>
      match reader first rest with
      | .error fault => .error ⟨offset, fault⟩
      | .ok r =>
          match readAll reader (offset + (rest.length + 1 - r.rest.length)) r.rest with
          | .error e => .error e
          | .ok more => .ok (r.value :: more)
termination_by bytes.length
decreasing_by exact r.short

end Charset

end Rulebook
