import Rulebook.Proofs.Document.Table

/-! # Trees with something missing

The table of node kinds and roles, loosened in four rows: an item may lack its scalar, a
scalar and the value of an option may use none of their roles, and a group may lack its
value. Nodes stand in no other place than those of the table.
-/

namespace Rulebook.Tree

/-- The row of the table for a kind of node that may lack something. The lexeme of a number
may be any text. -/
def LooseRow (kind : NodeKind) (children : Children) : Prop :=
  match kind with
  | .item => children.AtMostOne Role.name IsToken ∧ children.AtMostOne Role.scalar (IsNode .scalar)
  | .scalar =>
      children.OneOf scalarRoles IsScalarPart ∨ ∀ role ∈ scalarRoles, children.under role = []
  | .group => children.AtMostOne Role.value (IsNode .expression)
  | .optionValue =>
      children.OneOf Lowering.valueRoles (fun _ => IsToken) ∨
        ∀ role ∈ Lowering.valueRoles, children.under role = []
  | kind => Row kind children

/-- The roles under which nodes stand, with the kinds of these nodes. -/
def nodePlaces : NodeKind → List (String × NodeKind)
  | .document => [(Role.fields, .field)]
  | .field => [(Role.rules, .rules), (Role.tokens, .token), (Role.value, .optionValue)]
  | .token => [(Role.options, .option)]
  | .option => [(Role.value, .optionValue)]
  | .optionValue => []
  | .rules => [(Role.rules, .rule)]
  | .rule => [(Role.body, .sequence), (Role.body, .branch)]
  | .branch => [(Role.value, .sequence)]
  | .sequence => [(Role.expression, .expression)]
  | .expression => [(Role.value, .choice), (Role.value, .item)]
  | .choice => [(Role.elements, .item)]
  | .item => [(Role.scalar, .scalar)]
  | .scalar => [(Role.group, .group)]
  | .group => [(Role.value, .expression)]

/-- Every child is a token, or a node in one of the places for nodes. -/
def InPlace (kind : NodeKind) (children : Children) : Prop :=
  ∀ role, children.Each role fun s =>
    s.IsToken ∨ ∃ place ∈ nodePlaces kind, place.1 = role ∧ s.IsNode place.2

/-- A tree of which every node conforms to the loosened table and lists each role once. -/
inductive LooselyConforms : Tree → Prop
  | leaf (t : Leaf) : LooselyConforms (.leaf t)
  | node {kind : NodeKind} {children : Children} (row : LooseRow kind children)
      (places : InPlace kind children) (keyed : (children.map Prod.fst).Nodup)
      (kids : ∀ role, ∀ s ∈ children.under role, LooselyConforms s) :
      LooselyConforms (.node kind.name children)

theorem looselyConforms_node_iff {kind : NodeKind} {children : Children} :
    LooselyConforms (.node kind.name children) ↔
      LooseRow kind children ∧ InPlace kind children ∧ (children.map Prod.fst).Nodup ∧
        ∀ role, ∀ s ∈ children.under role, LooselyConforms s := by
  constructor
  · generalize hname : kind.name = name
    rintro (_ | @⟨other, _, row, places, keyed, kids⟩)
    obtain rfl := NodeKind.name_injective hname
    exact ⟨row, places, keyed, kids⟩
  · exact fun ⟨row, places, keyed, kids⟩ => .node row places keyed kids

/-- A node loosely conforms if it has its row and the children in all of its entries are in
place and loosely conform. -/
theorem LooselyConforms.of_entries {kind : NodeKind} {children : Children}
    (row : LooseRow kind children) (keyed : (children.map Prod.fst).Nodup)
    (kids : ∀ entry ∈ children, ∀ s ∈ entry.2, LooselyConforms s ∧
      (s.IsToken ∨ ∃ place ∈ nodePlaces kind, place.1 = entry.1 ∧ s.IsNode place.2)) :
    LooselyConforms (.node kind.name children) := by
  have hkid : ∀ role, ∀ s ∈ children.under role, LooselyConforms s ∧
      (s.IsToken ∨ ∃ place ∈ nodePlaces kind, place.1 = role ∧ s.IsNode place.2) := by
    intro role s hs
    obtain ⟨entry, hentry, hmem⟩ := Children.exists_kids_of_mem_under hs
    exact kids _ hentry s hmem
  exact .node row (fun role s hs => (hkid role s hs).2) keyed fun role s hs => (hkid role s hs).1

/-! ## Depth first -/

mutual

/-- The nodes of a tree, from left to right and each in front of those below it. -/
def nodes : Tree → List Tree
  | .node kind children => .node kind children :: nodesByRole children
  | _ => []

/-- The nodes of trees under roles. -/
def nodesByRole : List (String × List Tree) → List Tree
  | [] => []
  | (_, kids) :: rest => nodesOf kids ++ nodesByRole rest

/-- The nodes of trees in a row. -/
def nodesOf : List Tree → List Tree
  | [] => []
  | t :: rest => nodes t ++ nodesOf rest

end

theorem nodesOf_eq_flatMap (trees : List Tree) : nodesOf trees = trees.flatMap nodes := by
  induction trees with
  | nil => rfl
  | cons t rest ih => rw [nodesOf, ih, List.flatMap_cons]

theorem nodesByRole_cons (role : String) (kids : List Tree) (rest : Children) :
    nodesByRole ((role, kids) :: rest) = kids.flatMap nodes ++ nodesByRole rest := by
  rw [nodesByRole, nodesOf_eq_flatMap]

theorem IsToken.nodes_eq_nil {t : Tree} (h : t.IsToken) : nodes t = [] := by
  obtain ⟨leaf, rfl⟩ := h
  rw [nodes]
  simp

variable {children : Children} {role : String}

/-- With tokens alone under all roles but one, the nodes below a node are those of the
children under that role. -/
theorem nodesByRole_eq (keyed : (children.map Prod.fst).Nodup)
    (others : ∀ other, other ≠ role → children.Each other IsToken) :
    nodesByRole children = (children.under role).flatMap nodes := by
  induction children with
  | nil => rfl
  | cons entry rest ih =>
      obtain ⟨r, kids⟩ := entry
      rw [List.map_cons, List.nodup_cons] at keyed
      rw [nodesByRole_cons, Lowering.under_cons]
      have hothers : ∀ other, other ≠ role → Children.Each rest other IsToken := by
        intro other hne s hs
        by_cases hmem : other ∈ rest.map Prod.fst
        · have hother : other ≠ r := fun heq => keyed.1 (heq ▸ hmem)
          refine others other hne s ?_
          rwa [Lowering.under_cons, if_neg hother]
        · rw [Lowering.under_eq_nil hmem] at hs
          cases hs
      rw [ih keyed.2 hothers]
      by_cases hrole : role = r
      · rw [if_pos hrole, hrole, Lowering.under_eq_nil keyed.1]
        exact List.append_nil _
      · have htokens : kids.flatMap nodes = [] := by
          refine List.flatMap_eq_nil_iff.mpr fun s hs => ?_
          refine (others r (Ne.symm hrole) s ?_).nodes_eq_nil
          rwa [Lowering.under_cons, if_pos rfl]
        rw [if_neg hrole, htokens, List.nil_append]

/-- The nodes of a child are nodes of the node. -/
theorem mem_nodes_of_mem_under {kind : String} {s t : Tree} (hs : s ∈ children.under role)
    (ht : t ∈ nodes s) : t ∈ nodes (.node kind children) := by
  have hbelow : ∀ entries : Children, ∀ entry ∈ entries, s ∈ entry.2 → t ∈ nodesByRole entries := by
    intro entries
    induction entries with
    | nil => simp
    | cons first rest ih =>
        obtain ⟨r, kids⟩ := first
        rw [nodesByRole_cons, List.forall_mem_cons]
        refine ⟨fun hkid => ?_, fun entry hentry hkid => ?_⟩
        · exact List.mem_append_left _ (List.mem_flatMap.mpr ⟨s, hkid, ht⟩)
        · exact List.mem_append_right _ (ih entry hentry hkid)
  obtain ⟨kids, hentry, hkid⟩ := Children.exists_kids_of_mem_under hs
  rw [nodes]
  exact List.mem_cons_of_mem _ (hbelow children _ hentry hkid)

end Rulebook.Tree
