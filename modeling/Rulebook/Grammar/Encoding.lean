import Rulebook.Grammar.Within
import Rulebook.Json.Reader
import Rulebook.Json.Writer

/-! # Grammars as data

Every value of a grammar is encoded as an object that names its type, so each
value decodes without guessing:

    {"type": "named", "label": null, "modifier": "many1",
     "value": {"type": "ref", "name": "expr"}}

A sequence is encoded as an array. What is not part of a grammar has no
encoding. Decoding takes any data under a name, and objects and strings where
an array is expected, as long as what they hold one by one decodes.
-/

namespace Rulebook

/-- Why a value is not encoded. -/
inductive EncodeFault
  | notEncodable (typeName : String)
  | badKey
  deriving Repr, DecidableEq

/-- What is said of a value that is not encoded. -/
def EncodeFault.message? : EncodeFault → Option String
  | notEncodable typeName => some ("cannot encode " ++ typeName)
  | badKey => none

/-- Why data is not decoded. -/
inductive DecodeFault
  | notTagged (j : Json)
  | unknownType (j : Json)
  | unusableType
  | missingMember (key : String)
  | notASequence
  | notAnObject

/-- What is said of data that is not decoded. -/
def DecodeFault.message? : DecodeFault → Option String
  | notTagged j => some ("not a tagged AST node: " ++ j.display)
  | unknownType j => some ("unknown AST node type " ++ j.display)
  | missingMember key => some key.quotedText
  | _ => none

namespace Value

/-- The key of a member, from the name of an option: text as it is, and numbers,
truth values and nothing in writing. -/
def keyText? : Value → Option String
  | .data (.string s) => some s
  | .data .null => some "null"
  | .data (.bool b) => some (if b then "true" else "false")
  | .data (.int i) => some (String.ofList (Json.writtenInt i))
  | .data (.float x) => some (String.ofList (DoubleFormat.data.write x))
  | _ => none

/-- An object that names its type. -/
def tagged (type : String) (members : List (String × Json)) : Json :=
  .object (("type", .string type) :: members)

mutual

/-- The encoding of a value. The name of an option that cannot be a key of an
object is replaced by its display. -/
def encode : Value → Except EncodeFault Json
  | .data j => .error (.notEncodable j.typeName)
  | .tree t => .error (.notEncodable t.typeName)
  | .branch elements => .error (.notEncodable (Value.branch elements).typeName)
  | .list elements | .tuple elements => return .array (← encodeAll elements)
  | .grammar fields => return tagged "grammar" [("fields", .array (← encodeAll fields))]
  | .tokenSection tokens name =>
      return tagged "token_section" [("name", name), ("tokens", .array (← encodeAll tokens))]
  | .rulesField rules name =>
      return tagged "rules_field" [("name", name), ("rules", .array (← encodeAll rules))]
  | .otherField name => return tagged "other_field" [("name", name)]
  | .tokenDef name options =>
      return tagged "token_def" [("name", name), ("options", .object (← encodeOptions options))]
  | .ruleDef name body =>
      return tagged "rule_def" [("name", name), ("body", .array (← encodeAll body))]
  | .number value => return tagged "number" [("value", value)]
  | .regex pattern flags => return tagged "regex" [("pattern", pattern), ("flags", flags)]
  | .string text => return tagged "string" [("text", text)]
  | .identifier name => return tagged "identifier" [("name", name)]
  | .boolean value => return tagged "boolean" [("value", value)]
  | .ref name => return tagged "ref" [("name", name)]
  | .choice branches => return tagged "or" [("branches", .array (← encodeBranches branches))]
  | .named value label modifier => do
      let inner ← value.encode
      return tagged "named" [("label", label), ("modifier", modifier), ("value", inner)]

/-- The encodings of a sequence. -/
def encodeAll : List Value → Except EncodeFault (List Json)
  | [] => return []
  | v :: rest => do
      let first ← v.encode
      return first :: (← encodeAll rest)

/-- The encodings of the branches of a choice. -/
def encodeBranches : List (List Value) → Except EncodeFault (List Json)
  | [] => return []
  | elements :: rest => do
      let first ← encodeAll elements
      return .array first :: (← encodeBranches rest)

/-- The encodings of options as members of an object. -/
def encodeOptions : List (Value × Value) → Except EncodeFault (List (String × Json))
  | [] => return []
  | (name, v) :: rest => do
      let first ← v.encode
      return ((keyText? name).getD name.display, first) :: (← encodeOptions rest)

end

/-- Whether the names of a value's options can be keys of an object. -/
def hasTextKeysItself : Value → Bool
  | .tokenDef _ options => options.all fun option => (keyText? option.1).isSome
  | _ => true

/-- Whether the names of all options in a value can be keys of an object. -/
def hasTextKeys (v : Value) : Bool := !v.anyWithin (!·.hasTextKeysItself)

/-- The indented data text of a value. -/
def dump (v : Value) : Except EncodeFault String := do
  let j ← v.encode
  if v.hasTextKeys then return j.render else throw .badKey

/-- The text data of a member that may be missing. -/
def memberOr (key : String) (default : Json) (members : List (String × Json)) : Json :=
  (members.lookup key).getD default

/-- The data of a member. -/
def member (key : String) (members : List (String × Json)) : Except DecodeFault Json :=
  match members.lookup key with
  | some j => .ok j
  | none => .error (.missingMember key)

/-- The sequence that a text gives where one is expected: none of its characters
decodes. -/
def decodeCharacters (s : String) : Except DecodeFault (List Value) :=
  match s.toList with
  | [] => .ok []
  | c :: _ => .error (.notTagged (.string (String.singleton c)))

mutual

/-- The value that data encodes. -/
def decode : Json → Except DecodeFault Value
  | .array elements => return .tuple (← decodeAll elements)
  | .object members =>
      match members.lookup "type" with
      | none => .error (.notTagged (.object members))
      | some (.string type) =>
          match type with
          | "grammar" => return .grammar (← sequenceAt "fields" members)
          | "token_section" => do
              let tokens ← sequenceAt "tokens" members
              return .tokenSection tokens (memberOr "name" (.string "tokens") members)
          | "rules_field" => do
              let rules ← sequenceAt "rules" members
              return .rulesField rules (memberOr "name" (.string "rules") members)
          | "other_field" => return .otherField (← member "name" members)
          | "token_def" => do
              let name ← member "name" members
              return .tokenDef name (← optionsAt "options" members)
          | "rule_def" => do
              let name ← member "name" members
              return .ruleDef name (← sequenceAt "body" members)
          | "number" => return .number (← member "value" members)
          | "regex" => do
              let pattern ← member "pattern" members
              return .regex pattern (memberOr "flags" (.string "") members)
          | "string" => return .string (← member "text" members)
          | "identifier" => return .identifier (← member "name" members)
          | "boolean" => return .boolean (← member "value" members)
          | "ref" => return .ref (← member "name" members)
          | "or" => return .choice (← branchesAt "branches" members)
          | "named" => do
              let value ← valueAt "value" members
              return .named value (memberOr "label" .null members) (memberOr "modifier" .null members)
          | _ => .error (.unknownType (.string type))
      | some (.array _) | some (.object _) => .error .unusableType
      | some j => .error (.unknownType j)
  | j => .error (.notTagged j)

/-- The values that a sequence encodes. -/
def decodeAll : List Json → Except DecodeFault (List Value)
  | [] => return []
  | j :: rest => do
      let first ← decode j
      return first :: (← decodeAll rest)

/-- The values of what data holds one by one: the elements of an array, the
characters of a text, the keys of an object. -/
def decodeSequence : Json → Except DecodeFault (List Value)
  | .array elements => decodeAll elements
  | .string s => decodeCharacters s
  | .object [] => return []
  | .object ((key, _) :: _) => .error (.notTagged (.string key))
  | _ => .error .notASequence

/-- The sequences of values that a sequence encodes. -/
def decodeBranches : List Json → Except DecodeFault (List (List Value))
  | [] => return []
  | j :: rest => do
      let first ← decodeSequence j
      return first :: (← decodeBranches rest)

/-- The options that the members of an object encode. -/
def decodeOptions : List (String × Json) → Except DecodeFault (List (Value × Value))
  | [] => return []
  | (key, j) :: rest => do
      let first ← decode j
      return (.data (.string key), first) :: (← decodeOptions rest)

/-- The value of a member. -/
def valueAt (key : String) : List (String × Json) → Except DecodeFault Value
  | [] => .error (.missingMember key)
  | (k, j) :: rest => if k = key then decode j else valueAt key rest

/-- The sequence of a member. -/
def sequenceAt (key : String) : List (String × Json) → Except DecodeFault (List Value)
  | [] => .error (.missingMember key)
  | (k, j) :: rest => if k = key then decodeSequence j else sequenceAt key rest

/-- The branches of a member: sequences in an array; the characters of a text
and the keys of an object are texts themselves. -/
def branchesAt (key : String) : List (String × Json) → Except DecodeFault (List (List Value))
  | [] => .error (.missingMember key)
  | (k, j) :: rest =>
      if k = key then
        match j with
        | .array elements => decodeBranches elements
        | .string s => s.toList.mapM fun c => decodeCharacters (String.singleton c)
        | .object members => members.mapM fun m => decodeCharacters m.1
        | _ => .error .notASequence
      else branchesAt key rest

/-- The options of a member, which must be an object. -/
def optionsAt (key : String) : List (String × Json) → Except DecodeFault (List (Value × Value))
  | [] => .error (.missingMember key)
  | (k, j) :: rest =>
      if k = key then
        match j with
        | .object members => decodeOptions members
        | _ => .error .notAnObject
      else optionsAt key rest

end

/-- Why a data text is not loaded. -/
inductive LoadFault
  | text (fault : Json.Fault)
  | data (fault : DecodeFault)

/-- The value of a data text. -/
def load (text : String) : Except LoadFault Value :=
  match Json.parse text with
  | .error fault => .error (.text fault)
  | .ok j =>
      match decode j with
      | .error fault => .error (.data fault)
      | .ok v => .ok v

end Value

end Rulebook
