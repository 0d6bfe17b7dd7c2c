import Rulebook.Text.Quoted
import Rulebook.Token.Basic

/-! # Errors in the text of a rulebook

An error names its cause and its place. Its message shows the line of the text
in which it stands and a caret below. Where a character begins nothing, the caret is
indented as far as the character stands from the start of its line; below a token it is
indented by the column of the token.
-/

namespace Rulebook

/-- Why a text is no rulebook. Kinds of token are given by name. -/
inductive SyntaxFault
  | unexpectedChar (c : Char)
  | expectedToken (wanted found : String)
  | expectedFieldBody (field found : String)
  | expectedOptionValue (found : String)
  | missingSemicolon (rule found : String)
  | unexpectedToken (found : String)
  | emptyGroup
  | other (message : String)
  deriving Repr, DecidableEq

/-- What is said about a fault. -/
def SyntaxFault.text : SyntaxFault → String
  | unexpectedChar c => "Unexpected char " ++ (String.singleton c).quotedText
  | expectedToken wanted found => "Expected " ++ wanted ++ ", got " ++ found
  | expectedFieldBody field found =>
      "Expected '\x7b' or ':' after field " ++ field ++ ", got " ++ found
  | expectedOptionValue found => "Expected an option value, got " ++ found
  | missingSemicolon rule found =>
      "Missing ';' after rule '" ++ rule ++ "' (found " ++ found ++ ")"
  | unexpectedToken found => "Unexpected token " ++ found
  | emptyGroup => "Empty group '()'"
  | other message => message

/-- A fault at a line and a column, with the text of the line and the indentation of the
caret. -/
structure SyntaxError where
  fault : SyntaxFault
  line : Nat
  column : Nat
  sourceLine : List Char
  indent : Nat
  deriving Repr, DecidableEq

namespace SyntaxError

/-- The error for a fault at a place of a text. -/
def ofPlace (text : List Char) (fault : SyntaxFault) (place : Text.Position) : SyntaxError :=
  ⟨fault, place.line, place.column, Text.lineAt text place.offset,
    place.offset - Text.lineStart text place.offset⟩

/-- The error for a fault at the start of a token. -/
def ofToken {κ : Type} (text : List Char) (fault : SyntaxFault) (t : Token κ) : SyntaxError :=
  ⟨fault, t.line, t.column, Text.lineAt text t.start, t.column - 1⟩

/-- The message of an error: what is wrong and where, the line, and a caret. -/
def message (e : SyntaxError) : String :=
  e.fault.text ++ " at " ++ toString e.line ++ ":" ++ toString e.column ++ "\n"
    ++ String.ofList e.sourceLine ++ "\n"
    ++ String.ofList (List.replicate e.indent ' ') ++ "^"

end SyntaxError

end Rulebook
