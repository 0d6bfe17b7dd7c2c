import Rulebook.Grammar.Value

/-! # What stands within a value

A value is made of further values and of data. A question about all that stands
within a value is one about single values: about the data that each carries
itself, or about the names of its options.
-/

namespace Rulebook.Value

/-- The data that a value carries itself. -/
def ownData : Value → List Json
  | .data j | .tree (.plain j) => [j]
  | .tokenSection _ name | .otherField name | .rulesField _ name | .tokenDef name _
  | .ruleDef name _ | .identifier name | .ref name => [name]
  | .number j | .string j | .boolean j => [j]
  | .regex pattern flags => [pattern, flags]
  | .named _ label modifier => [label, modifier]
  | _ => []

mutual

/-- Whether a value, or one that stands within it, is as asked for. Both the names
and the values of options stand within a token. -/
def anyWithin (p : Value → Bool) : Value → Bool
  | .list elements => p (.list elements) || anyAmong p elements
  | .tuple elements => p (.tuple elements) || anyAmong p elements
  | .branch elements => p (.branch elements) || anyAmong p elements
  | .grammar fields => p (.grammar fields) || anyAmong p fields
  | .tokenSection tokens name => p (.tokenSection tokens name) || anyAmong p tokens
  | .rulesField rules name => p (.rulesField rules name) || anyAmong p rules
  | .tokenDef name options => p (.tokenDef name options) || anyAmongOptions p options
  | .ruleDef name body => p (.ruleDef name body) || anyAmong p body
  | .choice branches => p (.choice branches) || anyAmongBranches p branches
  | .named value label modifier => p (.named value label modifier) || value.anyWithin p
  | v => p v

/-- Whether anything within the values of a sequence is as asked for. -/
def anyAmong (p : Value → Bool) : List Value → Bool
  | [] => false
  | v :: rest => v.anyWithin p || anyAmong p rest

/-- Whether anything within branches is as asked for. -/
def anyAmongBranches (p : Value → Bool) : List (List Value) → Bool
  | [] => false
  | elements :: rest => anyAmong p elements || anyAmongBranches p rest

/-- Whether anything within options is as asked for. -/
def anyAmongOptions (p : Value → Bool) : List (Value × Value) → Bool
  | [] => false
  | (name, v) :: rest => name.anyWithin p || v.anyWithin p || anyAmongOptions p rest

end

/-- Whether a value is a list. -/
def isList : Value → Bool
  | .list _ => true
  | _ => false

/-- Whether there is a list within a value. -/
def hasLists (v : Value) : Bool := v.anyWithin isList

/-- Whether a value is a tree that may still grow. -/
def isNode : Value → Bool
  | .tree t => t.isNode
  | _ => false

/-- Whether a value can be a key: there is no list, no node, and no data within it
that cannot be one. -/
def isKey (v : Value) : Bool :=
  !v.anyWithin fun part => part.isList || part.isNode || part.ownData.any (!·.isKey)

/-- Whether a value is made anew as one that is not equal to it: it holds the
outcome of a computation that is not a number. -/
def isIndefinite (v : Value) : Bool :=
  v.anyWithin fun part => part.ownData.any fun j => j matches .float (.nan false)

end Rulebook.Value
