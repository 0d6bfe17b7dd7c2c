import Rulebook.Number.Decimal
import Rulebook.Text.Quoted

/-! # Data values

Data as a JSON text can hold them. Whole numbers and numbers of the double
format are told apart, and the members of an object keep their order.
-/

namespace Rulebook

/-- A data value. -/
inductive Json
  | null
  | bool (b : Bool)
  | int (i : Int)
  | float (x : Double)
  | string (s : String)
  | array (elements : List Json)
  | object (members : List (String × Json))
  deriving Inhabited

namespace Json

/-- The members of an object after one more is written: a key that is present
keeps its place and takes the new value. -/
def put (members : List (String × Json)) (key : String) (value : Json) : List (String × Json) :=
  match members with
  | [] => [(key, value)]
  | (k, v) :: rest => if k = key then (k, value) :: rest else (k, v) :: put rest key value

/-- An object from members in the order in which they were written. -/
def ofMembers (members : List (String × Json)) : Json :=
  .object (members.foldl (fun written member => put written member.1 member.2) [])

/-- The value of a member. -/
def member? (members : List (String × Json)) (key : String) : Option Json :=
  members.lookup key

/-- A truth value counts as the number zero or one. -/
def asInt? : Json → Option Int
  | .bool b => some (if b then 1 else 0)
  | .int i => some i
  | _ => none

/-- The name of a value's type. -/
def typeName : Json → String
  | .null => "NoneType"
  | .bool _ => "bool"
  | .int _ => "int"
  | .float _ => "float"
  | .string _ => "str"
  | .array _ => "list"
  | .object _ => "dict"

/-- Whether a value is empty: null, false, a zero, or without contents. -/
def isEmpty : Json → Bool
  | .null => true
  | .bool b => !b
  | .int i => i == 0
  | .float x => x.isZero
  | .string s => s.isEmpty
  | .array elements => elements.isEmpty
  | .object members => members.isEmpty

/-- Whether a value can be a key: arrays and objects cannot. -/
def isKey : Json → Bool
  | .array _ | .object _ => false
  | _ => true

/-- Equality of scalars: numbers of all types are compared by their value. -/
def sameScalar (a b : Json) : Bool :=
  match a, b with
  | .null, .null => true
  | .string s, .string t => s == t
  | .float x, .float y => x.same y
  | .float x, b => match b.asInt? with
    | some i => x.sameInt i
    | none => false
  | a, .float y => match a.asInt? with
    | some i => y.sameInt i
    | none => false
  | a, b => match a.asInt?, b.asInt? with
    | some i, some j => i == j
    | _, _ => false

mutual

/-- Equality of values: numbers of all types by their value, arrays element by
element, objects member by member in any order. -/
def same : Json → Json → Bool
  | .array as, .array bs => sameElements as bs
  | .object as, .object bs => as.length == bs.length && sameMembers as bs
  | .array _, _ => false
  | .object _, _ => false
  | a, b => a.sameScalar b

/-- Equality of arrays, element by element. -/
def sameElements : List Json → List Json → Bool
  | [], [] => true
  | a :: as, b :: bs => a.same b && sameElements as bs
  | _, _ => false

/-- Whether each of the first members has an equal one among the second. -/
def sameMembers : List (String × Json) → List (String × Json) → Bool
  | [], _ => true
  | (key, a) :: as, bs =>
      (match bs.lookup key with
        | some b => a.same b
        | none => false)
      && sameMembers as bs

end

mutual

/-- The display of a value on one line. -/
def display : Json → String
  | .null => "None"
  | .bool b => if b then "True" else "False"
  | .int i => toString i
  | .float x => String.ofList (DoubleFormat.display.write x)
  | .string s => s.quotedText
  | .array elements => "[" ++ ", ".intercalate (displayElements elements) ++ "]"
  | .object members => "\x7b" ++ ", ".intercalate (displayMembers members) ++ "\x7d"

/-- The displays of the elements of an array. -/
def displayElements : List Json → List String
  | [] => []
  | j :: rest => j.display :: displayElements rest

/-- The displays of the members of an object. -/
def displayMembers : List (String × Json) → List String
  | [] => []
  | (key, j) :: rest => (key.quotedText ++ ": " ++ j.display) :: displayMembers rest

end

end Json

end Rulebook
