import Mathlib.Computability.Language
import Rulebook.Proofs.Lowering.Visits

/-! # The languages of rules

Names and literals stand for languages that an interpretation gives, and all
else combines them. The body of a rule has a language twice over: that of its
trees, where a group is a union over its bars, and that of its lowered elements.
Labels have no part in either.
-/

namespace Rulebook

open Computability

variable {α : Type*}

/-- Languages for the names and the texts of literals. -/
structure Interpretation (α : Type*) where
  name : String → Language α
  text : String → Language α

/-! ## Languages of values -/

/-- The language of a repetition, given by its modifier. -/
noncomputable def repeated (modifier : Json) (l : Language α) : Language α :=
  match modifier with
  | .null => l
  | .string "optional" => 1 + l
  | .string "many" => l∗
  | .string "many1" => l * l∗
  | _ => 0

namespace Value

mutual

/-- The language of an element; that of a tuple is the one of its sequence. -/
noncomputable def language (I : Interpretation α) : Value → Language α
  | .ref (.string name) => I.name name
  | .string (.string text) => I.text text
  | .choice branches => unionLanguage I branches
  | .tuple elements => sequenceLanguage I elements
  | .named value _ modifier => repeated modifier (value.language I)
  | _ => 0

/-- The language of a sequence: the concatenation of its elements. -/
noncomputable def sequenceLanguage (I : Interpretation α) : List Value → Language α
  | [] => 1
  | v :: rest => v.language I * sequenceLanguage I rest

/-- The language of a choice: the union of its branches. -/
noncomputable def unionLanguage (I : Interpretation α) : List (List Value) → Language α
  | [] => 0
  | elements :: rest => sequenceLanguage I elements + unionLanguage I rest

end

theorem sequenceLanguage_append (I : Interpretation α) (vs ws : List Value) :
    sequenceLanguage I (vs ++ ws) = sequenceLanguage I vs * sequenceLanguage I ws := by
  induction vs with
  | nil => rw [List.nil_append, sequenceLanguage, one_mul]
  | cons v rest ih => rw [List.cons_append, sequenceLanguage, sequenceLanguage, ih, mul_assoc]

theorem sequenceLanguage_singleton (I : Interpretation α) (v : Value) :
    sequenceLanguage I [v] = v.language I := by
  rw [sequenceLanguage, sequenceLanguage, mul_one]

theorem unionLanguage_eq_sum (I : Interpretation α) (branches : List (List Value)) :
    unionLanguage I branches = (branches.map (sequenceLanguage I)).sum := by
  induction branches with
  | nil => rw [unionLanguage, List.map_nil, List.sum_nil]
  | cons elements rest ih => rw [unionLanguage, List.map_cons, List.sum_cons, ih]

end Value

/-! ## Languages of trees -/

namespace Tree

/-- Whether a tree is a bar between the parts of a group. -/
def isBar : Tree → Bool
  | .leaf t => t.kind == TokenKind.bar.name
  | _ => false

/-- The text of a literal: all between its quotes. -/
def literalText (lexeme : String) : String := String.ofList lexeme.toList.tail.dropLast

/-- The children of a node by role, each with its language. -/
abbrev Denoted (α : Type*) := List (String × List (Tree × Language α))

namespace Denoted

/-- The children under a role. -/
def under (roles : Denoted α) (role : String) : List (Tree × Language α) :=
  (roles.lookup role).getD []

/-- Whether a role has a child. -/
def uses (roles : Denoted α) (role : String) : Bool := !(roles.under role).isEmpty

/-- The languages under a role. -/
def languages (roles : Denoted α) (role : String) : List (Language α) :=
  (roles.under role).map Prod.snd

/-- The language of the first child under a role. -/
noncomputable def first (roles : Denoted α) (role : String) : Language α :=
  (roles.languages role).headD 0

/-- The lexeme of the token under a role. -/
def lexeme? (roles : Denoted α) (role : String) : Option String :=
  match roles.under role with
  | (.leaf t, _) :: _ => some t.lexeme
  | _ => none

/-- A union over the parts between bars of the concatenation of each part. -/
noncomputable def group (roles : Denoted α) : Language α :=
  (((roles.under Role.elements).splitOnP fun kid => kid.1.isBar).map fun part =>
    (part.map Prod.snd).prod).sum

/-- What is labeled, with its suffix. -/
noncomputable def item (roles : Denoted α) : Language α :=
  if roles.uses Role.optional then 1 + roles.first Role.scalar
  else if roles.uses Role.many then (roles.first Role.scalar)∗
  else if roles.uses Role.many1 then roles.first Role.scalar * (roles.first Role.scalar)∗
  else roles.first Role.scalar

/-- A literal, a name, or a group. -/
noncomputable def scalar (I : Interpretation α) (roles : Denoted α) : Language α :=
  match roles.lexeme? Role.singleQuoted, roles.lexeme? Role.doubleQuoted,
    roles.lexeme? Role.identifier with
  | some lexeme, _, _ => I.text (literalText lexeme)
  | none, some lexeme, _ => I.text (literalText lexeme)
  | none, none, some name => I.name name
  | none, none, none => roles.first Role.group

/-- The language of a node of a kind from those of its children. -/
noncomputable def language (I : Interpretation α) (kind : NodeKind) (roles : Denoted α) :
    Language α :=
  match kind with
  | .rule => (roles.languages Role.body).sum
  | .sequence => (roles.languages Role.expression).prod
  | .branch | .expression | .group => roles.first Role.value
  | .choice => roles.group
  | .item => roles.item
  | .scalar => roles.scalar I
  | _ => 0

end Denoted

mutual

/-- The language of a tree in the body of a rule; that of a rule is the union of
the trees in its body. -/
noncomputable def language (I : Interpretation α) : Tree → Language α
  | .node kind children =>
      match NodeKind.ofName? kind with
      | some kind => Denoted.language I kind (denoteRoles I children)
      | none => 0
  | _ => 0

/-- The languages of all children of a node. -/
noncomputable def denoteRoles (I : Interpretation α) : List (String × List Tree) → Denoted α
  | [] => []
  | (role, kids) :: rest => (role, denoteKids I kids) :: denoteRoles I rest

/-- The languages of the children under one role. -/
noncomputable def denoteKids (I : Interpretation α) : List Tree → List (Tree × Language α)
  | [] => []
  | t :: rest => (t, t.language I) :: denoteKids I rest

end

theorem denoteKids_eq_map (I : Interpretation α) (kids : List Tree) :
    denoteKids I kids = kids.map fun t => (t, t.language I) := by
  induction kids with
  | nil => rw [denoteKids, List.map_nil]
  | cons t rest ih => rw [denoteKids, List.map_cons, ih]

theorem under_denoteRoles (I : Interpretation α) (children : Children) (role : String) :
    (denoteRoles I children).under role =
      (children.under role).map fun t => (t, t.language I) := by
  induction children with
  | nil => rw [denoteRoles]; rfl
  | cons entry rest ih =>
      obtain ⟨r, kids⟩ := entry
      rw [denoteRoles]
      rw [denoteKids_eq_map, Denoted.under, Sequence.lookup_cons_eq_ite, Lowering.under_cons]
      by_cases hrole : role = r
      · rw [if_pos hrole, if_pos hrole, Option.getD_some]
      · rw [if_neg hrole, if_neg hrole]
        exact ih

theorem languages_denoteRoles (I : Interpretation α) (children : Children) (role : String) :
    (denoteRoles I children).languages role = (children.under role).map (Tree.language I) := by
  rw [Denoted.languages, under_denoteRoles, List.map_map]
  rfl

theorem uses_denoteRoles (I : Interpretation α) (children : Children) (role : String) :
    (denoteRoles I children).uses role = !(children.under role).isEmpty := by
  rw [Denoted.uses, under_denoteRoles, List.isEmpty_map]

theorem first_denoteRoles (I : Interpretation α) {children : Children} {role : String} {t : Tree}
    (h : children.under role = [t]) : (denoteRoles I children).first role = t.language I := by
  rw [Denoted.first, languages_denoteRoles, h]
  rfl

/-- The children as they are used: a role without children does not count. -/
theorem language_node (I : Interpretation α) (kind : NodeKind) (roles : Children) :
    (Document.node kind roles).language I =
      Denoted.language I kind (denoteRoles I (roles.filter fun role => !role.2.isEmpty)) := by
  rw [Document.node, language, NodeKind.ofName?_name]

/-- The language of a node depends on its children by role, whichever roles are
left out. -/
theorem exists_children_of_language (I : Interpretation α) (kind : NodeKind) (roles : Children)
    (h : (roles.map Prod.fst).Nodup) :
    ∃ children : Children, (Document.node kind roles).language I =
        Denoted.language I kind (denoteRoles I children) ∧
      ∀ role, children.under role = Children.under roles role :=
  ⟨_, language_node I kind roles, Lowering.under_filter h⟩

end Tree

end Rulebook
