import Rulebook.Json.Basic

/-! # Writing JSON texts

In the indented layout every element and member stands on a line of its own,
two spaces further in than its container, and an empty container is written
without a line break. In the compact layout all stands on one line. Characters
outside of ASCII are written as they are.
-/

namespace Rulebook.Json

/-- How a character is written in a string. -/
def writtenChar (c : Char) : List Char :=
  if c = '"' then ['\\', '"']
  else if c = '\\' then ['\\', '\\']
  else if c = '\n' then ['\\', 'n']
  else if c = '\r' then ['\\', 'r']
  else if c = '\t' then ['\\', 't']
  else if c = '\x08' then ['\\', 'b']
  else if c = '\x0c' then ['\\', 'f']
  else if c.toNat < 32 then '\\' :: 'u' :: Text.hexDigits 4 c.toNat
  else [c]

/-- A string in writing. -/
def writtenString (s : String) : List Char :=
  '"' :: s.toList.flatMap writtenChar ++ ['"']

/-- A whole number in writing. -/
def writtenInt (i : Int) : List Char :=
  if i < 0 then '-' :: Decimal.digitsOf i.natAbs else Decimal.digitsOf i.natAbs

/-- Where line breaks go: nowhere, or with an indentation of so many levels. -/
inductive Layout
  | compact
  | indented (level : Nat)

namespace Layout

/-- The layout inside of a container. -/
def deeper : Layout → Layout
  | .compact => .compact
  | .indented level => .indented (level + 1)

/-- What stands before an element, and before a closing bracket. -/
def lineBreak : Layout → List Char
  | .compact => []
  | .indented level => '\n' :: List.replicate (2 * level) ' '

/-- What separates two elements. -/
def separator : Layout → List Char
  | .compact => [',', ' ']
  | .indented level => ',' :: lineBreak (.indented level)

end Layout

mutual

/-- A value in writing. -/
def write (layout : Layout) : Json → List Char
  | .null => "null".toList
  | .bool b => if b then "true".toList else "false".toList
  | .int i => writtenInt i
  | .float x => DoubleFormat.data.write x
  | .string s => writtenString s
  | .array [] => ['[', ']']
  | .array (j :: rest) =>
      '[' :: layout.deeper.lineBreak ++ write layout.deeper j ++ writeElements layout.deeper rest
        ++ layout.lineBreak ++ [']']
  | .object [] => ['\x7b', '\x7d']
  | .object ((key, j) :: rest) =>
      '\x7b' :: layout.deeper.lineBreak ++ writtenString key ++ ':' :: ' ' :: write layout.deeper j
        ++ writeMembers layout.deeper rest ++ layout.lineBreak ++ ['\x7d']

/-- The further elements of an array, each after a separator. -/
def writeElements (layout : Layout) : List Json → List Char
  | [] => []
  | j :: rest => layout.separator ++ write layout j ++ writeElements layout rest

/-- The further members of an object, each after a separator. -/
def writeMembers (layout : Layout) : List (String × Json) → List Char
  | [] => []
  | (key, j) :: rest =>
      layout.separator ++ writtenString key ++ ':' :: ' ' :: write layout j
        ++ writeMembers layout rest

end

/-- The indented text of a value. -/
def render (j : Json) : String := String.ofList (j.write (.indented 0))

/-- The text of a value on one line. -/
def renderCompact (j : Json) : String := String.ofList (j.write .compact)

end Rulebook.Json
