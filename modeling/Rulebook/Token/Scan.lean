import Rulebook.SyntaxError
import Rulebook.Token.Piece

/-! # Scanning a text

Scanning cuts a text into pieces and keeps the tokens among them, each with its
place. Layout moves the place and leaves nothing else. Where no piece stands at
the head of what is left, scanning fails at its first character.
-/

namespace Rulebook

open Text

/-- The tokens of a text and the place of its end. -/
structure Scan where
  tokens : List (Token TokenKind)
  stop : Position
  deriving Repr, DecidableEq

namespace Scan

/-- The token that stands for the end of the text. -/
def endToken (s : Scan) : Token TokenKind := .ofText .endOfText s.stop []

/-- All tokens, the last of which is the end of the text. -/
def all (s : Scan) : List (Token TokenKind) := s.tokens ++ [s.endToken]

/-- A scan after one more piece in front of it. -/
def prepend (s : Scan) (place : Position) (p : Piece) : Scan :=
  match p.kind with
  | .layout _ => s
  | .token kind => { s with tokens := .ofText kind place p.text :: s.tokens }

/-- Scans what is left of a text, from a place on. The error is the place of the
character that begins no piece, with that character. -/
def ofCharsFrom (place : Position) (text : List Char) : Except (Position × Char) Scan :=
  match text with
  | [] => .ok ⟨[], place⟩
  | c :: more =>
      match _found : Piece.first? (c :: more) with
      | none => .error (place, c)
      | some p =>
          match ofCharsFrom (place.past p.text) p.rest with
          | .error e => .error e
          | .ok s => .ok (s.prepend place p)
termination_by text.length
decreasing_by exact Piece.length_rest_lt _found

/-- The scan of a text. -/
def ofChars (text : List Char) : Except SyntaxError Scan :=
  match ofCharsFrom .start text with
  | .ok s => .ok s
  | .error (place, c) => .error (.ofPlace text (.unexpectedChar c) place)

end Scan

end Rulebook
