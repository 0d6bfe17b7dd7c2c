import Rulebook.Grammar.Within

/-! # Equality of values

Values of different kinds are never equal, and values of one kind are equal if
their parts are. Options of a token are equal in any order. Two keys are the same
if they are equal and list the options of each token in the same order, as the hash
of a token takes them in.
-/

namespace Rulebook

/-- What the hash of a value is computed from: data and trees, and tuples of these. -/
inductive Hashed
  | data (j : Json)
  | tree (t : Tree)
  | tuple (parts : List Hashed)

namespace Hashed

mutual

/-- Whether hashes are computed from equal parts in the same order. -/
def same : Hashed → Hashed → Bool
  | .data a, .data b => a.same b
  | .tree a, .tree b => a.same b
  | .tuple as, .tuple bs => sameAll as bs
  | _, _ => false

/-- Whether the parts of two tuples are equal, one by one. -/
def sameAll : List Hashed → List Hashed → Bool
  | [], [] => true
  | a :: as, b :: bs => a.same b && sameAll as bs
  | _, _ => false

end

variable {η : Type} (ofData : Json → η) (ofTree : Tree → η) (ofTuple : List η → η)

mutual

/-- The hash that is computed, given how data, trees and tuples are hashed. -/
def digest : Hashed → η
  | .data j => ofData j
  | .tree t => ofTree t
  | .tuple parts => ofTuple (digestAll parts)

/-- The hashes that are computed from the parts of a tuple. -/
def digestAll : List Hashed → List η
  | [] => []
  | h :: rest => h.digest :: digestAll rest

end

end Hashed

namespace Value

mutual

/-- What the hash of a value is computed from: the fields of an element of a grammar. The
options of a token count as a tuple of pairs, in the order in which they are listed. -/
def hashed : Value → Hashed
  | .data j => .data j
  | .tree t => .tree t
  | .list elements | .tuple elements => .tuple (hashedAll elements)
  | .branch elements => .tuple [.tuple (hashedAll elements)]
  | .grammar fields => .tuple [.tuple (hashedAll fields)]
  | .tokenSection tokens name => .tuple [.tuple (hashedAll tokens), .data name]
  | .otherField name => .tuple [.data name]
  | .rulesField rules name => .tuple [.tuple (hashedAll rules), .data name]
  | .tokenDef name options => .tuple [.data name, .tuple (hashedOptions options)]
  | .ruleDef name body => .tuple [.data name, .tuple (hashedAll body)]
  | .number value => .tuple [.data value]
  | .regex pattern flags => .tuple [.data pattern, .data flags]
  | .string text => .tuple [.data text]
  | .identifier name => .tuple [.data name]
  | .boolean value => .tuple [.data value]
  | .ref name => .tuple [.data name]
  | .choice branches => .tuple [.tuple (hashedBranches branches)]
  | .named value label modifier => .tuple [value.hashed, .data label, .data modifier]

/-- What the hashes of values are computed from. -/
def hashedAll : List Value → List Hashed
  | [] => []
  | v :: rest => v.hashed :: hashedAll rest

/-- What the hashes of the branches of a choice are computed from. -/
def hashedBranches : List (List Value) → List Hashed
  | [] => []
  | elements :: rest => .tuple (hashedAll elements) :: hashedBranches rest

/-- What the hashes of options are computed from: each is a pair. -/
def hashedOptions : List (Value × Value) → List Hashed
  | [] => []
  | (name, v) :: rest => .tuple [name.hashed, v.hashed] :: hashedOptions rest

end

mutual

/-- Equality of values. With the first argument, options have to be in the same
order. -/
def sameWith (ordered : Bool) : Value → Value → Bool
  | .data a, .data b => a.same b
  | .tree a, .tree b => a.same b
  | .list as, .list bs => sameAll ordered as bs
  | .tuple as, .tuple bs => sameAll ordered as bs
  | .branch as, .branch bs => sameAll ordered as bs
  | .grammar as, .grammar bs => sameAll ordered as bs
  | .tokenSection as a, .tokenSection bs b => sameAll ordered as bs && a.same b
  | .otherField a, .otherField b => a.same b
  | .rulesField as a, .rulesField bs b => sameAll ordered as bs && a.same b
  | .tokenDef a as, .tokenDef b bs =>
      a.same b && as.length == bs.length
        && (if ordered then sameEach ordered as bs else sameOptions ordered as bs)
  | .ruleDef a as, .ruleDef b bs => a.same b && sameAll ordered as bs
  | .number a, .number b => a.same b
  | .regex a f, .regex b g => a.same b && f.same g
  | .string a, .string b => a.same b
  | .identifier a, .identifier b => a.same b
  | .boolean a, .boolean b => a.same b
  | .ref a, .ref b => a.same b
  | .choice as, .choice bs => sameBranches ordered as bs
  | .named v l m, .named w k n => v.sameWith ordered w && l.same k && m.same n
  | _, _ => false

/-- Equality of sequences, element by element. -/
def sameAll (ordered : Bool) : List Value → List Value → Bool
  | [], [] => true
  | a :: as, b :: bs => a.sameWith ordered b && sameAll ordered as bs
  | _, _ => false

/-- Equality of the branches of two choices, one by one. -/
def sameBranches (ordered : Bool) : List (List Value) → List (List Value) → Bool
  | [], [] => true
  | a :: as, b :: bs => sameAll ordered a b && sameBranches ordered as bs
  | _, _ => false

/-- Whether each of the first options has one among the second with the same key
and an equal value. -/
def sameOptions (ordered : Bool) : List (Value × Value) → List (Value × Value) → Bool
  | [], _ => true
  | (name, v) :: rest, bs =>
      bs.any (fun option => name.sameWith true option.1 && v.sameWith ordered option.2)
        && sameOptions ordered rest bs

/-- Equality of options in order. -/
def sameEach (ordered : Bool) : List (Value × Value) → List (Value × Value) → Bool
  | [], [] => true
  | (name, v) :: as, (name', w) :: bs =>
      name.sameWith ordered name' && v.sameWith ordered w && sameEach ordered as bs
  | _, _ => false

end

/-- Equality of values. -/
def same (a b : Value) : Bool := a.sameWith false b

/-- Whether two values are the same key; nothing if one of them cannot be a
key. Those that are equal in order are, and they hash alike. -/
def sameKey? (a b : Value) : Option Bool :=
  if a.isKey && b.isKey then some (a.sameWith true b) else none

/-- Options after one more is written: a name that is present as a key keeps its
place and takes the new value. An indefinite name is never present. -/
def putOption (options : List (Value × Value)) (name value : Value) : List (Value × Value) :=
  match options with
  | [] => [(name, value)]
  | (n, v) :: rest =>
      if n.sameWith true name && !name.isIndefinite then (n, value) :: rest
      else (n, v) :: putOption rest name value

end Value

end Rulebook
