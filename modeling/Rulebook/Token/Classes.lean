import Rulebook.Pattern.Backtrack
import Rulebook.Pattern.Parse
import Rulebook.Token.Piece

/-! # Classes of pieces

What a piece is, is said by patterns, one for each kind, in the order in which they are tried:
the piece at a place is the preferred match of the first pattern that matches there. The dot
stands for any character.
-/

namespace Rulebook

/-- The piece between two places in a text. -/
def Piece.between (kind : PieceKind) (first last : Pattern.Cursor) : Piece :=
  ⟨kind, first.rest.take (last.offset - first.offset), last.rest⟩

/-- A kind of piece and the pattern that its pieces match. -/
structure PieceClass where
  kind : PieceKind
  spelling : String

namespace PieceClass

/-- The classes, in the order in which they are tried. -/
def all : List PieceClass :=
  [⟨.layout .blanks, "[ \\t\\f\\r]+"⟩,
   ⟨.layout .newline, "\\n"⟩,
   ⟨.layout .lineComment, "//[^\\n]*"⟩,
   ⟨.layout .blockComment, "/\\*.*?\\*/"⟩,
   ⟨.token .colon, ":"⟩,
   ⟨.token .semicolon, ";"⟩,
   ⟨.token .comma, ","⟩,
   ⟨.token .bar, "\\|"⟩,
   ⟨.token .openParen, "\\("⟩,
   ⟨.token .closeParen, "\\)"⟩,
   ⟨.token .openBrace, "\\\x7b"⟩,
   ⟨.token .closeBrace, "\\\x7d"⟩,
   ⟨.token .equals, "="⟩,
   ⟨.token .question, "\\?"⟩,
   ⟨.token .star, "\\*"⟩,
   ⟨.token .plus, "\\+"⟩,
   ⟨.token .number, "-?[0-9]+(?:\\.[0-9]+)?"⟩,
   ⟨.token .regex, "/(?:\\\\.|[^/\\\\\\n])+/[imsxA]*"⟩,
   ⟨.token .doubleQuoted, "\"(?:\\\\.|[^\"\\\\])*\""⟩,
   ⟨.token .singleQuoted, "'(?:\\\\.|[^'\\\\])*'"⟩,
   ⟨.token .identifier, "[A-Za-z_][A-Za-z0-9_]*"⟩]

/-- The flags of the patterns: only that the dot stands for any character. -/
def flags : Pattern.Flags := .ofLetters ['s']

/-- The pattern of a class. -/
def pattern? (k : PieceClass) : Option Pattern := Pattern.parse? flags k.spelling.toList

/-- The piece of a class at a place. -/
def piece? (k : PieceClass) (c : Pattern.Cursor) : Option Piece := do
  let p ← k.pattern?
  let last ← p.preferredEnd? flags c
  return .between k.kind c last

/-- The piece of the first class that has one at a place. -/
def first? (c : Pattern.Cursor) : Option Piece := all.findSome? fun k => k.piece? c

end PieceClass

end Rulebook
