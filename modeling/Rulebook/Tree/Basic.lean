import Rulebook.Json.Basic
import Rulebook.Token.Basic

/-! # Labeled trees

A node has a kind and children under roles; several children may share a role,
and the roles keep the order in which they were first used. A leaf is a token.
A tree that was not read from a text may also hold plain data where a child is
expected.
-/

namespace Rulebook

/-- A labeled tree. -/
inductive Tree
  | leaf (token : Leaf)
  | node (kind : String) (children : List (String × List Tree))
  | plain (data : Json)
  deriving Inhabited

/-- Children by role. -/
abbrev Children := List (String × List Tree)

namespace Tree

/-- Nothing, where a tree is expected. -/
def absent : Tree := .plain .null

/-- The kind of a node or a leaf. -/
def kind? : Tree → Option String
  | .leaf t => some t.kind
  | .node kind _ => some kind
  | .plain _ => none

/-- The children of a node. -/
def children? : Tree → Option Children
  | .node _ children => some children
  | _ => none

/-- Whether a tree is a node. -/
def isNode : Tree → Bool
  | .node _ _ => true
  | _ => false

/-- Whether a tree is a node of a kind. -/
def isNodeOf (kind : String) : Tree → Bool
  | .node k _ => k = kind
  | _ => false

/-- Whether a tree is nothing. -/
def isAbsent : Tree → Bool
  | .plain .null => true
  | _ => false

/-- The name of the type of what stands in a tree. -/
def typeName : Tree → String
  | .leaf _ => "Tok"
  | .node _ _ => "CstNode"
  | .plain j => j.typeName

end Tree

namespace Children

/-- The children under a role; none if the role was not used. -/
def under (children : Children) (role : String) : List Tree :=
  (children.lookup role).getD []

/-- The children after one more is added under a role. -/
def add (children : Children) (role : String) (child : Tree) : Children :=
  match children with
  | [] => [(role, [child])]
  | (r, kids) :: rest =>
      if r = role then (r, kids ++ [child]) :: rest else (r, kids) :: add rest role child

/-- The first child under a role. A child that is nothing counts as no child. -/
def first? (children : Children) (role : String) : Option Tree :=
  match children.under role with
  | [] => none
  | t :: _ => if t.isAbsent then none else some t

/-- A child stands under a role where a token was wanted. -/
structure NotAToken where
  role : String
  found : String
  deriving Repr, DecidableEq

/-- What is said of a child that is no token. -/
def NotAToken.message (e : NotAToken) : String :=
  "role " ++ e.role.quotedText ++ " holds a " ++ e.found ++ ", not a token"

/-- The lexeme of the first token under a role, if the role has a child. -/
def lexeme? (children : Children) (role : String) : Except NotAToken (Option String) :=
  match children.first? role with
  | none => .ok none
  | some (.leaf t) => .ok (some t.lexeme)
  | some t => .error ⟨role, t.typeName⟩

end Children

namespace Tree

mutual

/-- Equality of trees: children are compared role by role in any order of the
roles. -/
def same : Tree → Tree → Bool
  | .leaf s, .leaf t => s == t
  | .node k as, .node l bs => k == l && as.length == bs.length && sameRoles as bs
  | .plain a, .plain b => a.same b
  | _, _ => false

/-- Whether each of the first roles has equal children among the second. -/
def sameRoles : List (String × List Tree) → List (String × List Tree) → Bool
  | [], _ => true
  | (role, kids) :: rest, bs =>
      (match bs.lookup role with
        | some others => sameKids kids others
        | none => false)
      && sameRoles rest bs

/-- Equality of children under one role, one by one. -/
def sameKids : List Tree → List Tree → Bool
  | [], [] => true
  | a :: as, b :: bs => a.same b && sameKids as bs
  | _, _ => false

end

end Tree

end Rulebook
