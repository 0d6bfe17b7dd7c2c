import Rulebook.Proofs.Lowering.Nodes

/-! # The table of node kinds and roles

Which children a node of each kind has under which roles. A tree conforms to the
table if all of its nodes do. The tree of a text always conforms; a tree that is
built otherwise may conform and still look quite different.
-/

namespace Rulebook

namespace Children

/-- Exactly one child stands under a role, and it is of a sort. -/
def One (children : Children) (role : String) (sort : Tree → Prop) : Prop :=
  ∃ s, children.under role = [s] ∧ sort s

/-- No child stands under a role, or one of a sort. -/
def AtMostOne (children : Children) (role : String) (sort : Tree → Prop) : Prop :=
  children.under role = [] ∨ children.One role sort

/-- Any number of children stand under a role, each of a sort. -/
def Each (children : Children) (role : String) (sort : Tree → Prop) : Prop :=
  ∀ s ∈ children.under role, sort s

/-- Of some roles exactly one is used, with one child of the sort for that role. -/
def OneOf (children : Children) (roles : List String) (sort : String → Tree → Prop) : Prop :=
  ∃ role ∈ roles, children.One role (sort role) ∧
    ∀ other ∈ roles, other ≠ role → children.under other = []

end Children

namespace Tree

/-- A token. -/
def IsToken (s : Tree) : Prop := ∃ t, s = .leaf t

/-- A node of a kind. -/
def IsNode (kind : NodeKind) (s : Tree) : Prop := ∃ children, s = .node kind.name children

/-- A token for the value of an option: under the role for numbers its lexeme can
be read as a number. -/
def IsValueToken (role : String) (s : Tree) : Prop :=
  ∃ t, s = .leaf t ∧ (role = Role.number → (Lowering.numberValue? t.lexeme).isSome)

/-- The roles of a scalar. -/
def scalarRoles : List String :=
  [Role.singleQuoted, Role.doubleQuoted, Role.identifier, Role.group]

/-- What stands under a role of a scalar: a group, or else a token. -/
def IsScalarPart (role : String) (s : Tree) : Prop :=
  if role = Role.group then s.IsNode .group else s.IsToken

/-- The row of the table for a kind of node. Roles that are not read may hold
anything, and so may the marks of an item: of several marks one counts. -/
def Row (kind : NodeKind) (children : Children) : Prop :=
  match kind with
  | .document => children.Each Role.fields (IsNode .field)
  | .field =>
      children.One Role.rules (IsNode .rules) ∨
        (children.under Role.rules = [] ∧ children.One Role.name IsToken ∧
          children.Each Role.tokens (IsNode .token))
  | .token => children.One Role.name IsToken ∧ children.Each Role.options (IsNode .option)
  | .option => children.One Role.name IsToken ∧ children.One Role.value (IsNode .optionValue)
  | .optionValue => children.OneOf Lowering.valueRoles IsValueToken
  | .rules => children.Each Role.rules (IsNode .rule)
  | .rule =>
      children.One Role.name IsToken ∧
        children.Each Role.body fun s => s.IsNode .sequence ∨ s.IsNode .branch
  | .branch => children.One Role.value (IsNode .sequence)
  | .sequence => children.Each Role.expression (IsNode .expression)
  | .expression => children.One Role.value fun s => s.IsNode .choice ∨ s.IsNode .item
  | .choice => children.Each Role.elements fun s => s.IsNode .item ∨ s.IsToken
  | .item => children.AtMostOne Role.name IsToken ∧ children.One Role.scalar (IsNode .scalar)
  | .scalar => children.OneOf scalarRoles IsScalarPart
  | .group => children.One Role.value (IsNode .expression)

/-- A row is about what stands under the roles, wherever it is written. -/
theorem row_congr {kind : NodeKind} {children others : Children}
    (h : ∀ role, others.under role = children.under role) (row : Row kind children) :
    Row kind others := by
  have hunder : others.under = children.under := funext h
  cases kind <;>
    simpa only [Row, Children.One, Children.AtMostOne, Children.Each, Children.OneOf,
      hunder] using row

/-- A tree of which every node conforms to the table. -/
inductive Conforms : Tree → Prop
  | leaf (t : Leaf) : Conforms (.leaf t)
  | node {kind : NodeKind} {children : Children} (row : Row kind children)
      (kids : ∀ role, ∀ s ∈ children.under role, Conforms s) :
      Conforms (.node kind.name children)

/-- A node conforms exactly if it has its row and all of its children conform. -/
theorem conforms_node_iff {kind : NodeKind} {children : Children} :
    Conforms (.node kind.name children) ↔
      Row kind children ∧ ∀ role, ∀ s ∈ children.under role, Conforms s := by
  constructor
  · generalize hname : kind.name = name
    rintro (_ | @⟨other, _, row, kids⟩)
    exact ⟨NodeKind.name_injective hname ▸ row, kids⟩
  · exact fun ⟨row, kids⟩ => .node row kids

/-- A node conforms if it has its row and the children in all of its entries
conform. -/
theorem Conforms.of_entries {kind : NodeKind} {children : Children} (row : Row kind children)
    (kids : ∀ entry ∈ children, ∀ s ∈ entry.2, Conforms s) :
    Conforms (.node kind.name children) := by
  refine .node row fun role s hs => ?_
  obtain ⟨entry, hentry, hkid⟩ := Children.exists_kids_of_mem_under hs
  exact kids _ hentry s hkid

end Tree

end Rulebook
