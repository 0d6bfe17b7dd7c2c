import Rulebook.Proofs.Document.Loose
import Rulebook.Proofs.Lowering.Conforming
import Rulebook.Proofs.Lowering.Faults

/-! # The first defect

A tree in which something is missing is lowered if nothing is missing where lowering comes
by: in blocks of rules and in sections of tokens. Otherwise the error is that of the first
defect there, depth first and from left to right.
-/

namespace Rulebook.Lowering

open Rulebook.Tree (Row LooseRow InPlace Conforms LooselyConforms IsToken IsNode IsScalarPart
  IsValueToken scalarRoles nodePlaces nodes)

/-! ## Defects -/

/-- Whether a tree is a scalar that uses none of its roles. -/
def isEmptyScalar : Tree → Bool
  | .node kind children =>
      kind = NodeKind.scalar.name && scalarRoles.all fun role => (Children.under children role).isEmpty
  | _ => false

/-- The defect of an item: it has no scalar, or an empty one. -/
def itemDefect? (children : Children) : Option LoweringError :=
  match children.under Role.scalar with
  | [] => some (.noScalar children)
  | s :: _ => if isEmptyScalar s then some (.noScalar children) else none

/-- The defect of a group: it has no value. -/
def groupDefect? (children : Children) : Option LoweringError :=
  if (children.under Role.value).isEmpty then some (.emptyGroup children) else none

/-- The defect of the value of an option: it uses none of its roles, or its number is none in
writing. -/
def valueDefect? (children : Children) : Option LoweringError :=
  if valueRoles.all fun role => (children.under role).isEmpty then some (.noValue children)
  else
    match children.under Role.number with
    | .leaf t :: _ =>
        if (numberValue? t.lexeme).isNone then some (.malformedValue Role.number t.lexeme children)
        else none
    | _ => none

/-- The defect of a node of a kind, whatever stands below it. -/
def kindDefect? : NodeKind → Children → Option LoweringError
  | .item, children => itemDefect? children
  | .group, children => groupDefect? children
  | .optionValue, children => valueDefect? children
  | _, _ => none

/-- The defect of a node. -/
def defect? : Tree → Option LoweringError
  | .node kind children => (NodeKind.ofName? kind).bind fun kind => kindDefect? kind children
  | _ => none

/-- The first defect in a tree, depth first. -/
def firstDefect (t : Tree) : Option LoweringError := (nodes t).findSome? defect?

variable {kind : NodeKind} {children : Children} {role : String} {e : LoweringError}

theorem defect?_node : defect? (.node kind.name children) = kindDefect? kind children := by
  rw [defect?, NodeKind.ofName?_name, Option.bind_some]

theorem eq_of_itemDefect? (h : itemDefect? children = some e) : e = .noScalar children := by
  unfold itemDefect? at h
  split at h
  · exact (Option.some.inj h).symm
  · split at h <;> cases h
    rfl

theorem eq_of_groupDefect? (h : groupDefect? children = some e) : e = .emptyGroup children := by
  unfold groupDefect? at h
  split at h <;> cases h
  rfl

theorem eq_of_valueDefect? (h : valueDefect? children = some e) :
    e = .noValue children ∨ ∃ lexeme, e = .malformedValue Role.number lexeme children := by
  unfold valueDefect? at h
  split at h
  · exact .inl (Option.some.inj h).symm
  · split at h
    · split at h <;> cases h
      exact .inr ⟨_, rfl⟩
    · cases h

/-- A defect shows the kind and the children of the node that has it. -/
theorem eq_node_of_defect? {s : Tree} (h : defect? s = some e) :
    s = .node e.nodeKind.name e.children := by
  cases s with
  | leaf t => cases h
  | plain j => cases h
  | node name children =>
      obtain ⟨kind, hkind, hdefect⟩ := Option.bind_eq_some_iff.mp h
      obtain rfl : kind.name = name := by simpa using List.find?_some hkind
      cases kind with
      | item => rw [eq_of_itemDefect? hdefect]; rfl
      | group => rw [eq_of_groupDefect? hdefect]; rfl
      | optionValue => rcases eq_of_valueDefect? hdefect with rfl | ⟨lexeme, rfl⟩ <;> rfl
      | _ => cases hdefect

theorem lower_of_isEmptyScalar {s : Tree} (h : isEmptyScalar s) : lower s = .ok Value.nothing := by
  cases s with
  | leaf t => cases h
  | plain j => cases h
  | node name children =>
      simp only [isEmptyScalar, scalarRoles, List.all_cons, List.all_nil, Bool.and_eq_true,
        decide_eq_true_eq] at h
      obtain ⟨rfl, hsingle, hdouble, hname, hgroup, -⟩ := h
      rw [lower_kind, ruleFor, scalar]
      simp [hsingle, hdouble, hname, hgroup]

theorem item_of_defect? (row : LooseRow .item children)
    (h : itemDefect? children = some e) : item (outcomes children) = .error (.error e) := by
  unfold itemDefect? at h
  rcases row.2 with hnone | ⟨s, hunder, grandchildren, rfl⟩
  · rw [hnone] at h
    cases h
    simp [item, Children.first?, hnone, fail]
  · rw [hunder] at h
    obtain ⟨hempty, rfl⟩ : isEmptyScalar _ ∧ _ = e := by simpa using h
    have hlower := lower_of_isEmptyScalar hempty
    simp [item, Children.first?, hunder, Tree.isAbsent, hlower, Value.isNone, Value.nothing, fail]

theorem group_of_defect? (h : groupDefect? children = some e) :
    group (outcomes children) = .error (.error e) := by
  unfold groupDefect? at h
  split at h
  · next hempty =>
      cases h
      simp [group, Children.first?, List.isEmpty_iff.mp hempty, fail]
  · cases h

theorem optionValue_of_defect? (h : valueDefect? children = some e) :
    optionValue (outcomes children) = .error (.error e) := by
  unfold valueDefect? at h
  split at h
  · next hempty =>
      cases h
      have hfind : valueRoles.find? (isUsed (outcomes children)) = none := by
        rw [List.find?_eq_none]
        intro role hrole
        simpa using List.all_eq_true.mp hempty role hrole
      rw [optionValue, hfind, outcomes_children]
      rfl
  · split at h
    · next t more hunder =>
        split at h
        · next hread =>
            cases h
            have hfind : valueRoles.find? (isUsed (outcomes children)) = some Role.number :=
              List.find?_cons_of_pos (by simp [hunder])
            have hlexeme : lexeme? (outcomes children) Role.number = .ok (some t.lexeme) := by
              simp [lexeme?, Children.lexeme?, Children.first?, hunder, Tree.isAbsent]
            rw [optionValue, hfind]
            simp +decide [hlexeme, valueOf, Option.isNone_iff_eq_none.mp hread, fail]
        · cases h
    · cases h

/-- A node with a defect is not lowered, and the defect is the error. -/
theorem lower_of_defect? (row : LooseRow kind children)
    (h : defect? (.node kind.name children) = some e) :
    lower (.node kind.name children) = .error (.error e) := by
  rw [defect?_node] at h
  rw [lower_kind]
  cases kind with
  | item => exact item_of_defect? row h
  | group => exact group_of_defect? h
  | optionValue => exact optionValue_of_defect? h
  | _ => cases h

/-- The value of an option without a defect has its row of the table. -/
theorem row_optionValue (row : LooseRow .optionValue children)
    (h : valueDefect? children = none) : Row .optionValue children := by
  unfold valueDefect? at h
  split at h
  · cases h
  · next hused =>
      rcases row with ⟨role, hrole, ⟨s, hunder, t, rfl⟩, others⟩ | hnone
      · refine ⟨role, hrole, ⟨_, hunder, t, rfl, ?_⟩, others⟩
        rintro rfl
        rw [hunder] at h
        simpa [Option.isSome_iff_ne_none] using h
      · refine absurd (List.all_eq_true.mpr fun role hrole => ?_) hused
        rw [hnone role hrole]
        rfl

/-- Without a defect of its own, and if it is no empty scalar, a node has its row of the
table. -/
theorem row_of_defect? (row : LooseRow kind children)
    (h : defect? (.node kind.name children) = none)
    (hfull : isEmptyScalar (.node kind.name children) = false) : Row kind children := by
  rw [defect?_node] at h
  cases kind with
  | item =>
      refine ⟨row.1, row.2.resolve_left fun hnone => ?_⟩
      simp [kindDefect?, itemDefect?, hnone] at h
  | group =>
      refine row.resolve_left fun hnone => ?_
      simp [kindDefect?, groupDefect?, hnone] at h
  | scalar =>
      refine row.resolve_right fun hnone => ?_
      simp only [isEmptyScalar, decide_true, Bool.true_and, List.all_eq_false] at hfull
      obtain ⟨role, hrole, hused⟩ := hfull
      exact hused (by rw [hnone role hrole]; rfl)
  | optionValue => exact row_optionValue row h
  | _ => exact row

/-! ## Below fields -/

/-- The kinds of node that stand below a field. -/
def IsInner (kind : NodeKind) : Prop := kind ≠ .document ∧ kind ≠ .field

instance : DecidablePred IsInner := fun _ => inferInstanceAs (Decidable (_ ∧ _))

theorem isInner_of_mem_nodePlaces {place : String × NodeKind} (inner : IsInner kind)
    (hplace : place ∈ nodePlaces kind) : IsInner place.2 := by
  have hall : ∀ place ∈ nodePlaces kind, IsInner place.2 := by
    cases kind <;> simp [nodePlaces, IsInner] at inner ⊢
  exact hall place hplace

/-- Below a field each kind of node has but one role for nodes. -/
theorem exists_nodeRole (inner : IsInner kind) : ∃ role, ∀ place ∈ nodePlaces kind, place.1 = role := by
  cases kind <;> simp [nodePlaces, IsInner] at inner ⊢

/-- A child of a node without a defect is no empty scalar. -/
theorem isEmptyScalar_kid (row : LooseRow kind children) (places : InPlace kind children)
    (h : defect? (.node kind.name children) = none) {s : Tree} (hs : s ∈ children.under role) :
    isEmptyScalar s = false := by
  rcases places role s hs with ⟨t, rfl⟩ | ⟨⟨placeRole, placeKind⟩, hplace, rfl, grandchildren, rfl⟩
  · rfl
  · by_cases hscalar : placeKind = .scalar
    · -- Scalars stand in items alone, and there an empty one is a defect.
      obtain ⟨rfl, rfl⟩ : kind = .item ∧ placeRole = Role.scalar := by
        subst hscalar
        cases kind <;> simp [nodePlaces] at hplace ⊢
        exact hplace
      rw [defect?_node] at h
      obtain ⟨t, hunder, -⟩ := row.2.resolve_left fun hnone => by
        rw [hnone] at hs
        cases hs
      rw [hunder, List.mem_singleton] at hs
      simp only [kindDefect?, itemDefect?, hunder, ← hs] at h
      simpa using h
    · have hname : placeKind.name ≠ NodeKind.scalar.name := fun heq =>
        hscalar (NodeKind.name_injective heq)
      simp [isEmptyScalar, hname]

/-- A node with a child in a place for nodes is no empty scalar. -/
theorem isEmptyScalar_eq_false {place : String × NodeKind} (hplace : place ∈ nodePlaces kind)
    {s : Tree} (hs : s ∈ children.under place.1) :
    isEmptyScalar (.node kind.name children) = false := by
  rw [Bool.eq_false_iff]
  intro hempty
  simp only [isEmptyScalar, Bool.and_eq_true, decide_eq_true_eq, List.all_eq_true] at hempty
  obtain ⟨hname, hall⟩ := hempty
  obtain rfl := NodeKind.name_injective hname
  cases List.mem_singleton.mp hplace
  have hnone := hall Role.group (by decide)
  rw [List.isEmpty_iff] at hnone
  rw [hnone] at hs
  cases hs

theorem firstDefect_eq_none_iff {t : Tree} : firstDefect t = none ↔ ∀ s ∈ nodes t, defect? s = none :=
  List.findSome?_eq_none_iff

theorem firstDefect_of_isToken {t : Tree} (h : t.IsToken) : firstDefect t = none := by
  rw [firstDefect, h.nodes_eq_nil, List.findSome?_nil]

/-- The first defect in a node is its own, or else the first one under its role for nodes. -/
theorem exists_firstDefect_node (inner : IsInner kind) (places : InPlace kind children)
    (keyed : (children.map Prod.fst).Nodup) :
    ∃ role, firstDefect (.node kind.name children) =
      (defect? (.node kind.name children)).or ((children.under role).findSome? firstDefect) := by
  obtain ⟨role, hrole⟩ := exists_nodeRole inner
  have others : ∀ other, other ≠ role → children.Each other IsToken := by
    intro other hne s hs
    rcases places other s hs with htoken | ⟨place, hplace, rfl, -⟩
    · exact htoken
    · exact absurd (hrole place hplace) hne
  refine ⟨role, ?_⟩
  rw [firstDefect, nodes, Tree.nodesByRole_eq keyed others, List.findSome?_cons,
    Sequence.findSome?_flatMap]
  cases defect? (.node kind.name children) <;> rfl

/-- A tree without a defect conforms to the table, unless it is an empty scalar. -/
theorem conforms_of_firstDefect {s : Tree} (h : LooselyConforms s) (hkind : s.IsNode kind)
    (inner : IsInner kind) (hfull : isEmptyScalar s = false) (hnone : firstDefect s = none) :
    Conforms s := by
  induction h generalizing kind with
  | leaf t => exact .leaf t
  | @node known children row places keyed kids ih =>
      obtain ⟨_, hnode⟩ := hkind
      obtain rfl := NodeKind.name_injective (Tree.node.inj hnode).1
      rw [firstDefect_eq_none_iff] at hnone
      have hhere : defect? (.node known.name children) = none :=
        hnone _ (by rw [nodes]; exact List.mem_cons_self)
      refine .node (row_of_defect? row hhere hfull) fun role s hs => ?_
      rcases places role s hs with ⟨t, rfl⟩ | ⟨place, hplace, -, hs'⟩
      · exact .leaf t
      · refine ih role s hs hs' (isInner_of_mem_nodePlaces inner hplace)
          (isEmptyScalar_kid row places hhere hs) ?_
        exact firstDefect_eq_none_iff.mpr fun t ht => hnone t (Tree.mem_nodes_of_mem_under hs ht)

/-! ## Rule by rule -/

/-- Under a role all trees in front of one conform to the table, and that one fails. -/
def FirstFails (children : Children) (role : String) (e : LoweringFailure) : Prop :=
  ∃ front s back, children.under role = front ++ s :: back ∧ (∀ t ∈ front, Conforms t) ∧
    lower s = .error e

theorem exists_lower {t : Tree} (h : Conforms t) : ∃ v, lower t = .ok v := by
  cases h with
  | leaf t => exact ⟨_, lower_leaf t⟩
  | @node kind children row kids =>
      obtain ⟨v, hv, -⟩ := lowers_of_conforms (.node row kids) kind ⟨_, rfl⟩
      exact ⟨v, hv⟩

namespace FirstFails

variable {failure : LoweringFailure}

theorem all (h : FirstFails children role failure) :
    (outcomes children).all role = .error failure := by
  obtain ⟨front, s, back, hunder, hfront, hs⟩ := h
  rw [all_outcomes_eq_mapM, hunder]
  exact mapM_append_eq_error (fun t ht => exists_lower (hfront t ht)) hs

theorem first {sort : Tree → Prop} (h : FirstFails children role failure)
    (one : children.One role sort) : (outcomes children).first role = .error failure := by
  obtain ⟨front, s, back, hunder, -, hs⟩ := h
  obtain ⟨t, ht, -⟩ := one
  obtain ⟨rfl, rfl, rfl⟩ : front = [] ∧ s = t ∧ back = [] := by
    rw [ht] at hunder
    cases front <;> simp_all
  rw [first_outcomes, ht, List.head?_cons, Option.getD_some, hs]

theorem ne_nil (h : FirstFails children role failure) : children.under role ≠ [] := by
  obtain ⟨front, s, back, hunder, -⟩ := h
  simp [hunder]

theorem token (h : FirstFails children Role.options failure) (row : Row .token children) :
    Lowering.token (outcomes children) = .error failure := by
  obtain ⟨front, s, back, hunder, hfront, hs⟩ := h
  have hstep : ∀ kid ∈ front.map fun t => (t, lower t), ∀ options : List (Value × Value), True →
      ∃ next, addOption options kid.2 = .ok next ∧ True := by
    intro kid hkid options _
    obtain ⟨t, ht, rfl⟩ := List.mem_map.mp hkid
    obtain ⟨grandchildren, rfl⟩ := row.2 t (by rw [hunder]; exact List.mem_append_left _ ht)
    obtain ⟨v, hv⟩ := exists_lower (hfront _ ht)
    obtain ⟨next, hnext⟩ := exists_addOption options hv
    exact ⟨next, by rw [hv, hnext], trivial⟩
  obtain ⟨options, hfold, -⟩ := exists_foldlM_eq_ok (b := []) trivial hstep
  rw [Lowering.token, outcomes_under, hunder, List.map_append, List.foldlM_append, hfold, ok_bind,
    List.map_cons, List.foldlM_cons, hs]
  rfl

theorem option (h : FirstFails children Role.value failure) (row : Row .option children) :
    Lowering.option (outcomes children) = .error failure := by
  obtain ⟨name, -, hname⟩ := exists_name row.1
  rw [Lowering.option, hname, ok_bind, h.first row.2]
  rfl

theorem rules (h : FirstFails children Role.rules failure) :
    Lowering.rules (outcomes children) = .error failure := by
  rw [Lowering.rules, h.all]
  rfl

theorem rule (h : FirstFails children Role.body failure) :
    Lowering.rule (outcomes children) = .error failure := by
  rw [Lowering.rule, h.all]
  rfl

theorem branch (h : FirstFails children Role.value failure) (row : Row .branch children) :
    Lowering.branch (outcomes children) = .error failure := by
  rw [Lowering.branch, h.first row]
  rfl

theorem sequence (h : FirstFails children Role.expression failure) :
    Lowering.sequence (outcomes children) = .error failure := by
  rw [Lowering.sequence, if_pos (by simpa using h.ne_nil), h.all]
  rfl

theorem choice (h : FirstFails children Role.elements failure) (row : Row .choice children) :
    Lowering.choice (outcomes children) = .error failure := by
  obtain ⟨front, s, back, hunder, hfront, hs⟩ := h
  have hitem : s.isNodeOf NodeKind.item.name = true := by
    rcases row s (by simp [hunder]) with ⟨grandchildren, rfl⟩ | ⟨t, rfl⟩
    · simp [Tree.isNodeOf]
    · simp at hs
  have hflatten := Sequence.flatten_groups
    (fun kid : Tree × Outcome Value => !kid.1.isNodeOf NodeKind.item.name)
    ((outcomes children).under Role.elements)
  rw [outcomes_under, hunder, List.map_append, List.filter_append, List.map_cons,
    List.filter_cons_of_pos (by simpa using hitem)] at hflatten
  rw [Lowering.choice, outcomes_under, hunder, List.map_append, List.map_cons,
    mapM_groups_eq_error Value.splice hflatten ?_ hs]
  · rfl
  · intro kid hkid
    obtain ⟨t, ht, rfl⟩ := List.mem_map.mp (List.mem_filter.mp hkid).1
    exact exists_lower (hfront t ht)

theorem item (h : FirstFails children Role.scalar failure) (row : Row .item children) :
    Lowering.item (outcomes children) = .error failure := by
  obtain ⟨s, hs⟩ := Option.isSome_iff_exists.mp (first?_of_one row.2 fun _ h => h)
  rw [Lowering.item, outcomes_children, hs]
  simp only [h.first row.2]
  rfl

theorem scalar (h : FirstFails children Role.group failure) (row : Row .scalar children) :
    Lowering.scalar (outcomes children) = .error failure := by
  obtain ⟨role, hrole, one, others⟩ := row
  obtain rfl : role = Role.group := by
    by_contra hne
    exact h.ne_nil (others Role.group (by decide) (Ne.symm hne))
  have hused : isUsed (outcomes children) Role.group = true := by simpa using h.ne_nil
  have hsingle := others Role.singleQuoted (by decide) (by decide)
  have hdouble := others Role.doubleQuoted (by decide) (by decide)
  have hname := others Role.identifier (by decide) (by decide)
  simp only [Lowering.scalar, hused, isUsed_outcomes, hsingle, hdouble, hname, List.isEmpty_nil,
    Bool.not_true, Bool.false_eq_true, if_false, if_true]
  exact h.first one

theorem group (h : FirstFails children Role.value failure) (row : Row .group children) :
    Lowering.group (outcomes children) = .error failure := by
  obtain ⟨s, hs⟩ := Option.isSome_iff_exists.mp (first?_of_one row fun _ h => h)
  rw [Lowering.group, outcomes_children, hs]
  exact h.first row

/-- The rule of a kind fails as the first child does that fails in a place for nodes. -/
theorem ruleFor {place : String × NodeKind} (h : FirstFails children place.1 failure)
    (inner : IsInner kind) (hplace : place ∈ nodePlaces kind) (row : Row kind children) :
    Lowering.ruleFor kind (outcomes children) = .error failure := by
  obtain ⟨role, found⟩ := place
  cases kind with
  | document => exact absurd rfl inner.1
  | field => exact absurd rfl inner.2
  | token =>
      cases List.mem_singleton.mp hplace
      exact h.token row
  | option =>
      cases List.mem_singleton.mp hplace
      exact h.option row
  | optionValue => cases hplace
  | rules =>
      cases List.mem_singleton.mp hplace
      exact h.rules
  | rule =>
      rcases List.mem_pair.mp hplace with heq | heq <;> cases heq
      · exact h.rule
      · exact h.rule
  | branch =>
      cases List.mem_singleton.mp hplace
      exact h.branch row
  | sequence =>
      cases List.mem_singleton.mp hplace
      exact h.sequence
  | expression =>
      rcases List.mem_pair.mp hplace with heq | heq <;> cases heq
      · exact h.first row
      · exact h.first row
  | choice =>
      cases List.mem_singleton.mp hplace
      exact h.choice row
  | item =>
      cases List.mem_singleton.mp hplace
      exact h.item row
  | scalar =>
      cases List.mem_singleton.mp hplace
      exact h.scalar row
  | group =>
      cases List.mem_singleton.mp hplace
      exact h.group row

end FirstFails

/-- A tree below a field with a defect is not lowered, and the first defect is the error. -/
theorem lower_of_firstDefect {s : Tree} (h : LooselyConforms s) (hkind : s.IsNode kind)
    (inner : IsInner kind) (hdefect : firstDefect s = some e) :
    lower s = .error (.error e) := by
  induction h generalizing kind with
  | leaf t => rw [firstDefect_of_isToken ⟨t, rfl⟩] at hdefect; cases hdefect
  | @node known children row places keyed kids ih =>
      obtain ⟨_, hnode⟩ := hkind
      obtain rfl := NodeKind.name_injective (Tree.node.inj hnode).1
      obtain ⟨role, hfirst⟩ := exists_firstDefect_node inner places keyed
      rw [hfirst] at hdefect
      rcases Option.or_eq_some_iff.mp hdefect with hhere | ⟨hhere, hbelow⟩
      · exact lower_of_defect? row hhere
      · obtain ⟨front, s, back, hunder, hs, hfront⟩ := List.findSome?_eq_some_iff.mp hbelow
        have hmem : s ∈ children.under role := by simp [hunder]
        have hfrontmem : ∀ t ∈ front, t ∈ children.under role := fun t ht => by simp [hunder, ht]
        rcases places role s hmem with htoken | ⟨place, hplace, rfl, hs'⟩
        · rw [firstDefect_of_isToken htoken] at hs
          cases hs
        · have hfails : FirstFails children place.1 (.error e) := by
            refine ⟨front, s, back, hunder, fun t ht => ?_,
              ih _ s hmem hs' (isInner_of_mem_nodePlaces inner hplace) hs⟩
            rcases places place.1 t (hfrontmem t ht) with ⟨token, rfl⟩ | ⟨other, hother, -, ht'⟩
            · exact .leaf token
            · exact conforms_of_firstDefect (kids _ t (hfrontmem t ht)) ht'
                (isInner_of_mem_nodePlaces inner hother)
                (isEmptyScalar_kid row places hhere (hfrontmem t ht)) (hfront t ht)
          rw [lower_kind]
          exact hfails.ruleFor inner hplace
            (row_of_defect? row hhere (isEmptyScalar_eq_false hplace hmem))

/-! ## Fields and documents -/

/-- Whether the name of a field is a given one. -/
def isNamed (children : Children) (name : String) : Bool :=
  match children.under Role.name with
  | .leaf t :: _ => t.lexeme = name
  | _ => false

/-- The nodes of a field by which lowering comes: those of its block of rules, or else those of
its tokens if its name is `tokens`. -/
def fieldNodes : Tree → List Tree
  | .node _ children =>
      match Children.under children Role.rules with
      | [] => if isNamed children "tokens" then (Children.under children Role.tokens).flatMap nodes else []
      | blocks => blocks.flatMap nodes
  | _ => []

/-- The nodes of a document by which lowering comes, in the order in which it does. -/
def reachableNodes : Tree → List Tree
  | .node _ children => (Children.under children Role.fields).flatMap fieldNodes
  | _ => []

/-- What becomes of a tree with a first defect, or without one. -/
def Decided (outcome : Outcome Value) (defect : Option LoweringError) : Prop :=
  match defect with
  | none => ∃ v, outcome = .ok v
  | some e => outcome = .error (.error e)

/-- Below a field a tree is lowered, or its first defect is the error. -/
theorem decided_lower {s : Tree} (h : LooselyConforms s) (hkind : s.IsNode kind)
    (inner : IsInner kind) (hscalar : kind ≠ .scalar) : Decided (lower s) (firstDefect s) := by
  cases hdefect : firstDefect s with
  | none =>
      have hfull : isEmptyScalar s = false := by
        obtain ⟨children, rfl⟩ := hkind
        have hname : kind.name ≠ NodeKind.scalar.name := fun heq =>
          hscalar (NodeKind.name_injective heq)
        simp [isEmptyScalar, hname]
      exact exists_lower (conforms_of_firstDefect h hkind inner hfull hdefect)
  | some e => exact lower_of_firstDefect h hkind inner hdefect

/-- Trees in a row are lowered, or the first defect among them is the error. -/
theorem decided_mapM {trees : List Tree} {defectOf : Tree → Option LoweringError}
    (h : ∀ s ∈ trees, Decided (lower s) (defectOf s)) (g : List Value → Value) :
    Decided ((trees.mapM lower).map g) (trees.findSome? defectOf) := by
  cases hfirst : trees.findSome? defectOf with
  | none =>
      have hall : ∀ s ∈ trees, ∃ v, lower s = .ok v ∧ True := fun s hs => by
        have hs' := h s hs
        rw [List.findSome?_eq_none_iff.mp hfirst s hs] at hs'
        exact hs'.imp fun _ hv => ⟨hv, trivial⟩
      obtain ⟨values, hvalues, -⟩ := exists_mapM_eq_ok hall
      exact ⟨g values, by rw [hvalues]; rfl⟩
  | some e =>
      obtain ⟨front, s, back, rfl, hs, hfront⟩ := List.findSome?_eq_some_iff.mp hfirst
      have hfail := h s (by simp)
      rw [hs] at hfail
      have hok : ∀ t ∈ front, ∃ v, lower t = .ok v := fun t ht => by
        have ht' := h t (by simp [ht])
        rwa [hfront t ht] at ht'
      change ((front ++ s :: back).mapM lower).map g = _
      rw [mapM_append_eq_error hok hfail]
      rfl

/-- A field is lowered, or the first defect by which lowering comes is the error. -/
theorem decided_field {f : Tree} (h : LooselyConforms f) (hf : f.IsNode .field) :
    Decided (lower f) ((fieldNodes f).findSome? defect?) := by
  obtain ⟨children, rfl⟩ := hf
  obtain ⟨row, -, -, kids⟩ := Tree.looselyConforms_node_iff.mp h
  rw [lower_kind, ruleFor]
  rcases row with ⟨s, hunder, hs⟩ | ⟨hnone, hname, htokens⟩
  · have hdecided := decided_lower (kids Role.rules s (by simp [hunder])) hs (by decide) (by decide)
    simp only [fieldNodes, hunder, List.flatMap_singleton]
    rwa [field_of_rules hunder hs]
  · obtain ⟨t, ht, hlexeme⟩ := exists_lexeme hname fun _ h => h
    have hnamed : isNamed children "tokens" = decide (t.lexeme = "tokens") := by
      simp [isNamed, ht]
    simp only [fieldNodes, hnone, hnamed, decide_eq_true_eq]
    rw [field_of_name hnone hlexeme]
    split
    · rw [Sequence.findSome?_flatMap]
      exact decided_mapM (fun s hs => decided_lower (kids Role.tokens s hs) (htokens s hs) (by decide)
        (by decide)) _
    · exact ⟨_, rfl⟩

theorem decided_document {t : Tree} (h : LooselyConforms t) (ht : t.IsNode .document) :
    Decided (lower t) ((reachableNodes t).findSome? defect?) := by
  obtain ⟨children, rfl⟩ := ht
  obtain ⟨row, -, -, kids⟩ := Tree.looselyConforms_node_iff.mp h
  have hdocument : lower (.node NodeKind.document.name children) =
      ((Children.under children Role.fields).mapM lower).map .grammar := by
    rw [lower_kind, ruleFor, document, all_outcomes_eq_mapM]
    cases (Children.under children Role.fields).mapM lower <;> rfl
  rw [hdocument, reachableNodes, Sequence.findSome?_flatMap]
  exact decided_mapM (fun f hf => decided_field (kids Role.fields f hf) (row f hf)) _

/-- A document in which things may be missing is lowered exactly if no node by which lowering
comes has a defect. Otherwise the first such defect is the error, and shows the kind and the
children of its node. -/
theorem attempt_eq_firstDefect {t : Tree} (h : LooselyConforms t) (document : t.IsNode .document) :
    ((∃ grammar, attempt t = .ok (.ok grammar)) ↔ ∀ s ∈ reachableNodes t, defect? s = none) ∧
      ∀ front s back e, reachableNodes t = front ++ s :: back → (∀ r ∈ front, defect? r = none) →
        defect? s = some e →
          attempt t = .ok (.error e) ∧ s = .node e.nodeKind.name e.children := by
  have hdecided := decided_document h document
  constructor
  · rw [← List.findSome?_eq_none_iff]
    cases hfirst : (reachableNodes t).findSome? defect? with
    | none =>
        rw [hfirst] at hdecided
        obtain ⟨v, hv⟩ := hdecided
        simp [attempt, hv]
    | some e =>
        rw [hfirst] at hdecided
        have he : lower t = .error (.error e) := hdecided
        simp [attempt, he]
  · intro front s back e hsplit hfront hs
    have hfirst : (reachableNodes t).findSome? defect? = some e :=
      List.findSome?_eq_some_iff.mpr ⟨front, s, back, hsplit, hs, hfront⟩
    rw [hfirst] at hdecided
    have he : lower t = .error (.error e) := hdecided
    exact ⟨by simp [attempt, he], eq_node_of_defect? hs⟩

/-! ## Three defects

The first one stands in a place by which lowering does not come, and the last one is never
reached. -/

/-- A name as a child. -/
def wordLeaf (lexeme : String) : Tree := .leaf { kind := "IDENT", lexeme }

/-- The value of an option whose number is none in writing. -/
def malformedNumber : Tree :=
  .node NodeKind.optionValue.name [(Role.number, [.leaf { kind := "NUMBER", lexeme := "x" }])]

/-- The value of an option that uses none of its roles. -/
def missingValue : Tree := .node NodeKind.optionValue.name []

/-- An option with a value. -/
def optionWith (name : String) (value : Tree) : Tree :=
  .node NodeKind.option.name [(Role.name, [wordLeaf name]), (Role.value, [value])]

/-- A token with a missing value and a malformed one. -/
def defectiveToken : Tree :=
  .node NodeKind.token.name [(Role.name, [wordLeaf "T"]),
    (Role.options, [optionWith "a" missingValue, optionWith "b" malformedNumber])]

/-- A field with a name and a child under another role. -/
def namedField (name role : String) (child : Tree) : Tree :=
  .node NodeKind.field.name [(Role.name, [wordLeaf name]), (role, [child])]

/-- A document with a malformed value in a field that is lowered to its name, and with that
token. -/
def defectiveDocument : Tree :=
  .node NodeKind.document.name [(Role.fields,
    [namedField "start" Role.value malformedNumber, namedField "tokens" Role.tokens defectiveToken])]

theorem looselyConforms_optionWith (name : String) {value : Tree} (h : LooselyConforms value)
    (hvalue : value.IsNode .optionValue) : LooselyConforms (optionWith name value) := by
  refine .of_entries ?_ (by simp +decide) ?_
  · simp +decide [LooseRow, Row, Children.One, under_cons, IsToken, wordLeaf, hvalue]
  · simp [h, hvalue, LooselyConforms.leaf, IsToken, wordLeaf, nodePlaces]

theorem looselyConforms_malformedNumber : LooselyConforms malformedNumber := by
  refine .of_entries (.inl ⟨Role.number, by decide, ⟨_, rfl, _, rfl⟩, ?_⟩) (by simp) ?_
  · intro other hother hne
    rw [under_cons, if_neg hne]
    rfl
  · simp [LooselyConforms.leaf, IsToken]

theorem looselyConforms_missingValue : LooselyConforms missingValue :=
  .of_entries (.inr fun _ _ => rfl) (by simp) (by simp)

theorem looselyConforms_defectiveDocument : LooselyConforms defectiveDocument := by
  have hmissing := looselyConforms_optionWith "a" looselyConforms_missingValue ⟨_, rfl⟩
  have hmalformed := looselyConforms_optionWith "b" looselyConforms_malformedNumber ⟨_, rfl⟩
  have hoption : ∀ name value, IsNode .option (optionWith name value) := fun _ _ => ⟨_, rfl⟩
  have htoken : LooselyConforms defectiveToken := by
    refine .of_entries ?_ (by simp +decide) ?_
    · simp +decide [LooseRow, Row, Children.One, Children.Each, under_cons, IsToken, wordLeaf, hoption]
    · simp [hmissing, hmalformed, hoption, LooselyConforms.leaf, IsToken, wordLeaf, nodePlaces]
  have hfield : ∀ name role child, IsNode .field (namedField name role child) :=
    fun _ _ _ => ⟨_, rfl⟩
  have hvalue : IsNode .optionValue malformedNumber := ⟨_, rfl⟩
  have hstart : LooselyConforms (namedField "start" Role.value malformedNumber) := by
    refine .of_entries ?_ (by simp +decide) ?_
    · simp +decide [LooseRow, Row, Children.One, Children.Each, under_cons, IsToken, wordLeaf]
    · simp [looselyConforms_malformedNumber, hvalue, LooselyConforms.leaf, IsToken, wordLeaf,
        nodePlaces]
  have hnode : IsNode .token defectiveToken := ⟨_, rfl⟩
  have hsection : LooselyConforms (namedField "tokens" Role.tokens defectiveToken) := by
    refine .of_entries ?_ (by simp +decide) ?_
    · simp +decide [LooseRow, Row, Children.One, Children.Each, under_cons, IsToken, wordLeaf, hnode]
    · simp [htoken, hnode, LooselyConforms.leaf, IsToken, wordLeaf, nodePlaces]
  refine .of_entries ?_ (by simp) ?_
  · simp [LooseRow, Row, Children.Each, under_cons, hfield]
  · simp [hstart, hsection, hfield, nodePlaces]

theorem attempt_defectiveDocument :
    attempt defectiveDocument = .ok (.error (.noValue [])) := by
  obtain ⟨-, hfirst⟩ := attempt_eq_firstDefect looselyConforms_defectiveDocument ⟨_, rfl⟩
  exact (hfirst [defectiveToken, optionWith "a" missingValue] missingValue
    [optionWith "b" malformedNumber, malformedNumber] (.noValue []) rfl (by simp; decide) rfl).1

end Rulebook.Lowering
