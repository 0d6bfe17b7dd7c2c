import Rulebook.Charset.SingleByte
import Rulebook.Charset.Utf16
import Rulebook.Charset.Utf8

/-! # Decoding

The text for which the bytes of a file stand, in a given character set.
-/

namespace Rulebook.Charset

/-- The text for which bytes stand. The offset in an error counts bytes from the
first one that is decoded: a mark of UTF-8 is dropped before and not counted,
while a mark of UTF-16 is decoded and counted. -/
def decode (charset : Charset) (bytes : List UInt8) : Except Undecodable (List Char) :=
  match charset with
  | utf8 => Utf8.reader.readAll 0 (Utf8.withoutMark bytes)
  | utf16 =>
      let (order, offset, text) := Utf16.byteOrder bytes
      (Utf16.reader order).readAll offset text
  | utf16LittleEndian => (Utf16.reader .littleEndian).readAll 0 bytes
  | utf16BigEndian => (Utf16.reader .bigEndian).readAll 0 bytes
  | ascii => (SingleByte.reader SingleByte.ascii).readAll 0 bytes
  | latin1 => (SingleByte.reader SingleByte.latin1).readAll 0 bytes
  | windows1252 => (SingleByte.reader SingleByte.windows1252).readAll 0 bytes

/-- The bytes of a text in UTF-8, without a mark. -/
def encodeUtf8 (text : List Char) : List UInt8 := text.flatMap String.utf8EncodeChar

end Rulebook.Charset
