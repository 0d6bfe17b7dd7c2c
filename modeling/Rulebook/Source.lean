import Rulebook.Charset.Decode
import Rulebook.Charset.Name
import Rulebook.Files.Basic
import Rulebook.Text.Line

/-! # The text of a file

A file is read as text in a named encoding. The encoding is looked up before the
file is read; line breaks of any kind become newlines. The message about bytes
that are no text shows the byte of the file at the offset of the error, and the
line counts newline bytes before it.
-/

namespace Rulebook

/-- A file that is no text in the encoding in which it was to be read. -/
structure UndecodableFile where
  path : String
  encoding : String
  bytes : List UInt8
  error : Charset.Undecodable
  deriving Repr, DecidableEq

namespace UndecodableFile

/-- The byte of the file at the offset of the error. -/
def byte (e : UndecodableFile) : List UInt8 := (e.bytes.drop e.error.offset).take 1

/-- One more than the newline bytes before the offset of the error. -/
def line (e : UndecodableFile) : Nat := (e.bytes.take e.error.offset).count 0x0a + 1

/-- The message about a file that is no text. -/
def message (e : UndecodableFile) : String :=
  e.path ++ ":" ++ toString e.line ++ ": cannot decode byte "
    ++ String.ofList (Text.quotedBytes e.byte) ++ " at offset " ++ toString e.error.offset
    ++ " as " ++ e.encoding ++ " (" ++ e.error.fault.text ++ ")"

end UndecodableFile

/-- Why no text is had from a file. -/
inductive LoadFailure
  | nulCharacter
  | unknownEncoding (name : String)
  | binaryEncoding (name : String)
  | file (e : FileError)
  | undecodable (e : UndecodableFile)
  deriving Repr, DecidableEq

namespace LoadFailure

/-- What is said about a failure. -/
def message : LoadFailure → String
  | nulCharacter => "embedded null character"
  | unknownEncoding name => "unknown encoding: " ++ name
  | binaryEncoding name =>
      name.quotedText ++ " is not a text encoding; use codecs.decode() to handle arbitrary codecs"
  | file e => e.message
  | undecodable e => e.message

end LoadFailure

namespace Source

/-- Whether a text holds a character that neither a path nor the name of an
encoding can hold. -/
def hasNul (s : String) : Bool := s.toList.contains '\x00'

/-- The text for which the bytes of a file stand. No bytes stand for no text in
any encoding. -/
def decode (path encodingName : String) (encoding : Encoding) (bytes : List UInt8) :
    Except LoadFailure (List Char) :=
  match encoding with
  | .binary name => if bytes.isEmpty then .ok [] else .error (.binaryEncoding name)
  | .text charset =>
      match charset.decode bytes with
      | .error e => .error (.undecodable ⟨path, encodingName, bytes, e⟩)
      | .ok text => .ok (Text.unifyBreaks text)

/-- The text of a file. -/
def load (files : Files) (path encodingName : String) : Except LoadFailure (List Char) :=
  if hasNul encodingName then .error .nulCharacter
  else match Encoding.ofName? encodingName with
    | none => .error (.unknownEncoding encodingName)
    | some encoding =>
        if hasNul path then .error .nulCharacter
        else match files.read (.ofString path) with
          | .error e => .error (.file e)
          | .ok bytes => decode path encodingName encoding bytes

/-- The encoding in which files are read when none is named. -/
def defaultEncoding : String := "utf-8"

end Source

end Rulebook
