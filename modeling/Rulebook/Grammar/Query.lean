import Rulebook.Grammar.Encoding
import Rulebook.Grammar.Equality

/-! # Questions about a grammar

The names of its fields, all tokens of its token sections, all rules of its
blocks of rules, and whether it survives being encoded and decoded.
-/

namespace Rulebook.Value

/-- The name that a value carries. -/
def name? : Value → Option Json
  | .tokenSection _ name | .otherField name | .rulesField _ name | .tokenDef name _
  | .ruleDef name _ | .identifier name | .ref name => some name
  | _ => none

/-- The names of values, if all of them carry one. -/
def names? (values : List Value) : Option (List Json) := values.mapM name?

/-- All tokens that a list of fields declares. -/
def tokens (fields : List Value) : List Value :=
  fields.flatMap fun field =>
    match field with
    | .tokenSection tokens _ => tokens
    | _ => []

/-- All rules that a list of fields holds. -/
def rules (fields : List Value) : List Value :=
  fields.flatMap fun field =>
    match field with
    | .rulesField rules _ => rules
    | _ => []

/-- Why a value cannot be sent through its encoding. -/
inductive RoundTripFault
  | encode (fault : EncodeFault)
  | load (fault : LoadFault)

/-- Whether a value is equal to what its encoding decodes to, and to what its
data text loads to. Decoding gives back all of a value that can be encoded, but
makes tuples of the lists in it, so the data text is needed only if there are
none. -/
def roundTrips (v : Value) : Except RoundTripFault Bool :=
  match v.encode with
  | .error fault => .error (.encode fault)
  | .ok _ =>
      if v.hasLists then .ok false
      else match v.dump with
        | .error fault => .error (.encode fault)
        | .ok text =>
            match load text with
            | .error fault => .error (.load fault)
            | .ok w => .ok (w.same v)

end Rulebook.Value
