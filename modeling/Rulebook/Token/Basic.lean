import Rulebook.Text.Line

/-! # Tokens

A token is a piece of text with its kind and its place. The scanner gives one
of the kinds of `TokenKind`; a token that stands in a tree may be of any kind,
given by name.
-/

namespace Rulebook

/-- The kinds of token in the text of a rulebook. -/
inductive TokenKind
  | colon | semicolon | comma | bar
  | openParen | closeParen | openBrace | closeBrace
  | equals | question | star | plus
  | number | regex | doubleQuoted | singleQuoted | identifier
  | endOfText
  deriving Repr, DecidableEq, Inhabited

/-- The name of a kind of token. -/
def TokenKind.name : TokenKind → String
  | colon => "COLON"
  | semicolon => "SEMI"
  | comma => "COMMA"
  | bar => "OR"
  | openParen => "LPAREN"
  | closeParen => "RPAREN"
  | openBrace => "LBRACE"
  | closeBrace => "RBRACE"
  | equals => "EQ"
  | question => "QMARK"
  | star => "STAR"
  | plus => "PLUS"
  | number => "NUMBER"
  | regex => "REGEX"
  | doubleQuoted => "STRING"
  | singleQuoted => "SSTRING"
  | identifier => "IDENT"
  | endOfText => "EOF"

/-- A token of a kind taken from `κ`: its lexeme, the offsets at which it starts
and stops, and the line and column of its start. -/
structure Token (κ : Type) where
  kind : κ
  lexeme : String
  start : Nat := 0
  stop : Nat := 0
  line : Nat := 1
  column : Nat := 1
  deriving Repr, DecidableEq, Inhabited

namespace Token

variable {κ μ : Type}

/-- The same token with another kind. -/
def mapKind (f : κ → μ) (t : Token κ) : Token μ :=
  { t with kind := f t.kind }

/-- The token for a piece of text at a place. -/
def ofText (kind : κ) (place : Text.Position) (text : List Char) : Token κ :=
  { kind, lexeme := String.ofList text, start := place.offset, stop := place.offset + text.length,
    line := place.line, column := place.column }

end Token

/-- A token with its kind given by name. -/
abbrev Leaf := Token String

/-- The token under the name of its kind. -/
def Token.toLeaf (t : Token TokenKind) : Leaf := t.mapKind TokenKind.name

end Rulebook
