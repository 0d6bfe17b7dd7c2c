import Rulebook.Document.Parse

/-! # Tokens and trees in another place

A token keeps its kind and its lexeme where it is moved to, and a tree is moved token by
token. All places may be moved to the same one, which leaves of a tree what does not
depend on places.
-/

namespace Rulebook

/-- Where a token stands in a text. -/
structure Span where
  start : Nat
  stop : Nat
  line : Nat
  column : Nat
  deriving Repr, DecidableEq

/-- The place of a token that stands in no text. -/
def Span.nowhere : Span := ⟨0, 0, 1, 1⟩

namespace Token

variable {κ : Type}

/-- Where a token stands. -/
def span (t : Token κ) : Span := ⟨t.start, t.stop, t.line, t.column⟩

/-- The same token in another place. -/
def moved (f : Span → Span) (t : Token κ) : Token κ :=
  { t with
    start := (f t.span).start
    stop := (f t.span).stop
    line := (f t.span).line
    column := (f t.span).column }

variable (f : Span → Span) (t : Token κ)

@[simp] theorem moved_kind : (t.moved f).kind = t.kind := rfl

@[simp] theorem moved_lexeme : (t.moved f).lexeme = t.lexeme := rfl

/-- Tokens that are all moved to one place are known by their kinds and lexemes. -/
theorem map_moved_const (place : Span) (tokens : List (Token κ)) :
    tokens.map (Token.moved fun _ => place) =
      (tokens.map fun t => (t.kind, t.lexeme)).map fun l =>
        ⟨l.1, l.2, place.start, place.stop, place.line, place.column⟩ := by
  rw [List.map_map]
  rfl

end Token

namespace Tree

mutual

/-- The same tree with its tokens in another place. -/
def moved (f : Span → Span) : Tree → Tree
  | .leaf t => .leaf (t.moved f)
  | .node kind children => .node kind (movedRoles f children)
  | .plain data => .plain data

/-- The same children by role. -/
def movedRoles (f : Span → Span) : List (String × List Tree) → List (String × List Tree)
  | [] => []
  | (role, kids) :: rest => (role, movedKids f kids) :: movedRoles f rest

/-- The same children under one role. -/
def movedKids (f : Span → Span) : List Tree → List Tree
  | [] => []
  | t :: rest => t.moved f :: movedKids f rest

end

variable (f : Span → Span)

theorem movedKids_eq_map (kids : List Tree) : movedKids f kids = kids.map (moved f) := by
  induction kids with
  | nil => rfl
  | cons t rest ih => rw [movedKids, ih, List.map_cons]

theorem movedRoles_eq_map (roles : Children) :
    movedRoles f roles = roles.map fun entry => (entry.1, entry.2.map (moved f)) := by
  induction roles with
  | nil => rfl
  | cons entry rest ih =>
      obtain ⟨role, kids⟩ := entry
      rw [movedRoles, ih, movedKids_eq_map, List.map_cons]

/-- A tree without the places of its tokens. -/
def withoutPlaces : Tree → Tree := moved fun _ => .nowhere

end Tree

namespace Document

variable (f : Span → Span)

@[simp] theorem leaf_moved (t : Token TokenKind) : (leaf t).moved f = leaf (t.moved f) := rfl

@[simp] theorem node_moved (kind : NodeKind) (roles : Children) :
    (node kind roles).moved f =
      node kind (roles.map fun entry => (entry.1, entry.2.map (Tree.moved f))) := by
  simp [node, Tree.moved, Tree.movedRoles_eq_map, List.filter_map, Function.comp_def]

end Document

end Rulebook
