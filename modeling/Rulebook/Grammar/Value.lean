import Rulebook.Sequence
import Rulebook.Tree.Outline

/-! # Values of lowering

Lowering turns the tree of a document into a compact grammar: fields, token
declarations with options, and rules with bodies made of few kinds of element.
A tree of the wrong shape leaves other values in it: whatever has no handler
stays as it is. So does a data text that spells a grammar with odd contents. All
of these are values; which of them make up a proper grammar is a property.
-/

namespace Rulebook

/-- A value of lowering. Sequences come in three forms: lists while they are
being built, tuples when they are done, and branches, which are alternatives of
a choice that is not yet formed. -/
inductive Value
  | data (j : Json)
  | tree (t : Tree)
  | list (elements : List Value)
  | tuple (elements : List Value)
  | branch (elements : List Value)
  | grammar (fields : List Value)
  | tokenSection (tokens : List Value) (name : Json)
  | otherField (name : Json)
  | rulesField (rules : List Value) (name : Json)
  | tokenDef (name : Json) (options : List (Value × Value))
  | ruleDef (name : Json) (body : List Value)
  | number (value : Json)
  | regex (pattern flags : Json)
  | string (text : Json)
  | identifier (name : Json)
  | boolean (value : Json)
  | ref (name : Json)
  | choice (branches : List (List Value))
  | named (value : Value) (label modifier : Json)
  deriving Inhabited

namespace Value

/-- No value. -/
def nothing : Value := .data .null

/-- Plain data as a value. An array becomes a list of values. -/
def ofJson : Json → Value
  | .array elements => .list (ofElements elements)
  | j => .data j
where
  /-- The elements of an array as values. -/
  ofElements : List Json → List Value
    | [] => []
    | j :: rest => ofJson j :: ofElements rest

/-- A tree that stays as it is. -/
def ofTree : Tree → Value
  | .plain j => ofJson j
  | t => .tree t

/-- A text that may be missing, as data. -/
def textData (s : Option String) : Json := (s.map Json.string).getD .null

/-- Whether a value is none. -/
def isNone : Value → Bool
  | .data .null => true
  | _ => false

/-- Whether a value is a branch. -/
def isBranch : Value → Bool
  | .branch _ => true
  | _ => false

/-- Whether a value is empty: none, an empty sequence, or empty data. -/
def isEmpty : Value → Bool
  | .data j => j.isEmpty
  | .list elements | .tuple elements => elements.isEmpty
  | _ => false

/-- The elements of a list or a tuple. -/
def elements? : Value → Option (List Value)
  | .list elements | .tuple elements => some elements
  | _ => none

/-- What a value holds one by one: the elements of a sequence, the characters of
a text, the keys of an object. -/
def items? : Value → Option (List Value)
  | .list elements | .tuple elements => some elements
  | .data (.string s) => some (s.toList.map fun c => .data (.string (String.singleton c)))
  | .data (.object members) => some (members.map fun member => .data (.string member.1))
  | _ => none

/-- A sequence of values with its lists and tuples spliced in. -/
def splice (values : List Value) : List Value := Sequence.splice elements? values

/-- The name of a value's type. -/
def typeName : Value → String
  | .data j => j.typeName
  | .tree t => t.typeName
  | .list _ => "list"
  | .tuple _ => "tuple"
  | .branch _ => "OrBranch"
  | .grammar _ => "Grammar"
  | .tokenSection _ _ => "TokenSectionField"
  | .otherField _ => "OtherField"
  | .rulesField _ _ => "RulesField"
  | .tokenDef _ _ => "TokenDef"
  | .ruleDef _ _ => "RuleDef"
  | .number _ => "Number"
  | .regex _ _ => "Regex"
  | .string _ => "StringLiteral"
  | .identifier _ => "IdentifierRef"
  | .boolean _ => "Boolean"
  | .ref _ => "Ref"
  | .choice _ => "Or"
  | .named _ _ _ => "Named"

/-- Displays between parentheses; a single one has a comma after it. -/
def displayTuple (elements : List String) : String :=
  match elements with
  | [s] => "(" ++ s ++ ",)"
  | _ => "(" ++ ", ".intercalate elements ++ ")"

mutual

/-- The display of a value on one line. -/
def display : Value → String
  | .data j => j.display
  | .tree t => t.display
  | .list elements => "[" ++ ", ".intercalate (displayAll elements) ++ "]"
  | .tuple elements => displayTuple (displayAll elements)
  | .branch elements => "OrBranch(value=" ++ displayTuple (displayAll elements) ++ ")"
  | .grammar fields => "Grammar(fields=" ++ displayTuple (displayAll fields) ++ ")"
  | .tokenSection tokens name =>
      "TokenSectionField(tokens=" ++ displayTuple (displayAll tokens) ++ ", name=" ++ name.display ++ ")"
  | .otherField name => "OtherField(name=" ++ name.display ++ ")"
  | .rulesField rules name =>
      "RulesField(rules=" ++ displayTuple (displayAll rules) ++ ", name=" ++ name.display ++ ")"
  | .tokenDef name options =>
      "TokenDef(name=" ++ name.display ++ ", options=mappingproxy(\x7b"
        ++ ", ".intercalate (displayOptions options) ++ "\x7d))"
  | .ruleDef name body =>
      "RuleDef(name=" ++ name.display ++ ", body=" ++ displayTuple (displayAll body) ++ ")"
  | .number value => "Number(value=" ++ value.display ++ ")"
  | .regex pattern flags => "Regex(pattern=" ++ pattern.display ++ ", flags=" ++ flags.display ++ ")"
  | .string text => "StringLiteral(text=" ++ text.display ++ ")"
  | .identifier name => "IdentifierRef(name=" ++ name.display ++ ")"
  | .boolean value => "Boolean(value=" ++ value.display ++ ")"
  | .ref name => "Ref(name=" ++ name.display ++ ")"
  | .choice branches => "Or(branches=" ++ displayTuple (displayBranches branches) ++ ")"
  | .named value label modifier =>
      "Named(value=" ++ value.display ++ ", label=" ++ label.display
        ++ ", modifier=" ++ modifier.display ++ ")"

/-- The displays of values. -/
def displayAll : List Value → List String
  | [] => []
  | v :: rest => v.display :: displayAll rest

/-- The displays of the branches of a choice. -/
def displayBranches : List (List Value) → List String
  | [] => []
  | elements :: rest => displayTuple (displayAll elements) :: displayBranches rest

/-- The displays of options with their names. -/
def displayOptions : List (Value × Value) → List String
  | [] => []
  | (name, v) :: rest => (name.display ++ ": " ++ v.display) :: displayOptions rest

end

end Value

end Rulebook
