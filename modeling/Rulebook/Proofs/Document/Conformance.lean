import Rulebook.Proofs.Document.Table
import Rulebook.Proofs.Lowering.Numbers
import Rulebook.Proofs.Surface.Acceptance

/-! # The tree of a text conforms

Every node that the parser makes has the children of its row. The only row that
asks for more than the parser sees is that of the value of an option: what stands
there as a number has to be one, which the scanner sees to.
-/

namespace Rulebook.Surface

open Document (node leaf)
open Lowering (NumbersRead under_cons under_nil under_filter)
open Rulebook.Tree (Row row_congr Conforms IsToken IsNode IsScalarPart scalarRoles)

variable {kind : NodeKind} {roles : Children} {role : String} {t : Tree}

/-- A node conforms with the children it is made from, of which some roles may be
without any. -/
theorem conforms_node (row : Row kind roles) (distinct : (roles.map Prod.fst).Nodup)
    (kids : ∀ entry ∈ roles, ∀ s ∈ entry.2, Conforms s) : Conforms (node kind roles) :=
  .of_entries (row_congr (under_filter distinct) row) fun entry hentry =>
    kids entry (List.mem_filter.mp hentry).1

@[simp] theorem conforms_leaf (t : Token TokenKind) : Conforms (leaf t) := .leaf _

@[simp] theorem isToken_leaf (t : Token TokenKind) : IsToken (leaf t) := ⟨_, rfl⟩

@[simp] theorem isNode_node (kind : NodeKind) (roles : Children) : IsNode kind (node kind roles) :=
  ⟨_, rfl⟩

/-! ## Rows of nodes with one role -/

theorem one_single {sort : Tree → Prop} (h : sort t) : Children.One [(role, [t])] role sort :=
  ⟨t, by rw [under_cons, if_pos rfl], h⟩

theorem each_single {sort : Tree → Prop} {kids : List Tree} (h : ∀ s ∈ kids, sort s) :
    Children.Each [(role, kids)] role sort := by
  rwa [Children.Each, under_cons, if_pos rfl]

theorem oneOf_single {rs : List String} {sort : String → Tree → Prop} (hrole : role ∈ rs)
    (h : sort role t) : Children.OneOf [(role, [t])] rs sort := by
  refine ⟨role, hrole, one_single h, fun other _ hne => ?_⟩
  rw [under_cons, if_neg hne, under_nil]

/-! ## Bodies of rules -/

theorem conforms_expression (hsort : IsNode .choice t ∨ IsNode .item t) (h : Conforms t) :
    Conforms (node .expression [(Role.value, [t])]) :=
  conforms_node (one_single hsort) (by simp) (by simpa using h)

theorem conforms_literal (hrole : role ∈ scalarRoles) (hne : role ≠ Role.group)
    (t : Token TokenKind) : Conforms (node .scalar [(role, [leaf t])]) := by
  refine conforms_node (oneOf_single hrole ?_) (by simp) (by simp)
  rw [IsScalarPart, if_neg hne]
  exact isToken_leaf t

theorem conforms_group {choice : Tree} (hsort : IsNode .choice choice) (h : Conforms choice) :
    let group := node .group [(Role.value, [node .expression [(Role.value, [choice])]])]
    Conforms (node .scalar [(Role.group, [group])]) := by
  intro group
  have hgroup : Conforms group :=
    conforms_node (one_single (isNode_node _ _)) (by simp)
      (by simpa using conforms_expression (.inl hsort) h)
  refine conforms_node (oneOf_single (by decide) ?_) (by simp) (by simpa using hgroup)
  rw [IsScalarPart, if_pos rfl]
  exact isNode_node _ _

theorem conforms_of_mem_labelTrees {label : Option Label} : ∀ s ∈ labelTrees label, Conforms s := by
  cases label <;> simp [labelTrees]

theorem conforms_of_mem_suffixRoles {suffix : Option Suffix} :
    ∀ entry ∈ suffixRoles suffix, ∀ s ∈ entry.2, Conforms s := by
  cases suffix with
  | none => simp [suffixRoles]
  | some s => cases s <;> simp [suffixRoles]

theorem conforms_item (label : Option Label) (suffix : Option Suffix) (hsort : IsNode .scalar t)
    (h : Conforms t) : Conforms (node .item (Lowering.itemRoles label t suffix)) := by
  refine conforms_node ⟨?_, t, ?_, hsort⟩ (Lowering.itemRoles_nodup label t suffix) ?_
  · have hunder : Children.under (Lowering.itemRoles label t suffix) Role.name =
        labelTrees label := by
      simp [Lowering.itemRoles, under_cons]
    cases label with
    | none => exact .inl hunder
    | some l => exact .inr ⟨leaf l.name.token, hunder, isToken_leaf _⟩
  · simp +decide [Lowering.itemRoles, under_cons]
  · intro entry hentry
    rcases List.mem_append.mp hentry with hfront | hmark
    · simp only [List.mem_cons, List.not_mem_nil, or_false] at hfront
      rcases hfront with rfl | rfl
      · exact conforms_of_mem_labelTrees
      · simpa using h
    · exact conforms_of_mem_suffixRoles entry hmark

theorem Item.isNode_tree (i : Item) : IsNode .item i.tree := by
  cases i
  rw [Item.tree]
  exact isNode_node _ _

theorem Scalar.isNode_tree (d : Scalar) : IsNode .scalar d.tree := by
  cases d <;> (rw [Scalar.tree]; exact isNode_node _ _)

theorem Element.isNode_or_isToken (e : Element) : IsNode .item e.tree ∨ IsToken e.tree := by
  cases e with
  | bar bar =>
      rw [Element.tree]
      exact .inr (isToken_leaf _)
  | item i =>
      rw [Element.tree]
      exact .inl i.isNode_tree

theorem isNode_or_isToken_of_mem_elementTrees (es : List Element) :
    ∀ s ∈ elementTrees es, IsNode .item s ∨ IsToken s := by
  induction es with
  | nil => simp [elementTrees]
  | cons e rest ih =>
      rw [elementTrees]
      exact List.forall_mem_cons.mpr ⟨e.isNode_or_isToken, ih⟩

mutual

theorem Item.conforms (i : Item) : Conforms i.tree := by
  cases i with
  | mk label scalar suffix =>
      rw [Lowering.item_tree]
      exact conforms_item label suffix scalar.isNode_tree scalar.conforms

theorem Scalar.conforms (d : Scalar) : Conforms d.tree := by
  cases d with
  | singleQuoted literal =>
      rw [Scalar.tree]
      exact conforms_literal (by decide) (by decide) _
  | doubleQuoted literal =>
      rw [Scalar.tree]
      exact conforms_literal (by decide) (by decide) _
  | name name =>
      rw [Scalar.tree]
      exact conforms_literal (by decide) (by decide) _
  | group opening first more closing =>
      rw [Scalar.tree]
      refine conforms_group (isNode_node _ _) (conforms_node (each_single ?_) (by simp) ?_)
      · exact List.forall_mem_cons.mpr
          ⟨first.isNode_or_isToken, isNode_or_isToken_of_mem_elementTrees more⟩
      · simpa using ⟨first.conforms, conforms_of_mem_elementTrees more⟩

theorem Element.conforms (e : Element) : Conforms e.tree := by
  cases e with
  | bar bar =>
      rw [Element.tree]
      exact conforms_leaf _
  | item i =>
      rw [Element.tree]
      exact i.conforms

theorem conforms_of_mem_elementTrees (es : List Element) : ∀ s ∈ elementTrees es, Conforms s := by
  cases es with
  | nil => simp [elementTrees]
  | cons e rest =>
      rw [elementTrees]
      exact List.forall_mem_cons.mpr ⟨e.conforms, conforms_of_mem_elementTrees rest⟩

end

theorem conforms_sequenceTree (items : Sequence) : Conforms (sequenceTree items) := by
  refine conforms_node (each_single ?_) (by simp) ?_
  · intro s hs
    obtain ⟨item, -, rfl⟩ := List.mem_map.mp hs
    exact isNode_node _ _
  · simpa [expressionTrees] using
      fun item (_ : item ∈ items) => conforms_expression (.inr item.isNode_tree) item.conforms

theorem conforms_branchTree (items : Sequence) : Conforms (branchTree items) :=
  conforms_node (one_single (isNode_node _ _)) (by simp)
    (by simpa using conforms_sequenceTree items)

theorem Rule.conforms (r : Rule) : Conforms r.tree := by
  have hparts : ∀ s ∈ r.bodyTrees, (IsNode .sequence s ∨ IsNode .branch s) ∧ Conforms s := by
    intro s hs
    unfold Rule.bodyTrees at hs
    split at hs
    · rw [List.mem_singleton.mp hs]
      exact ⟨.inl (isNode_node _ _), conforms_sequenceTree _⟩
    · obtain ⟨items, -, rfl⟩ := List.mem_map.mp hs
      exact ⟨.inr (isNode_node _ _), conforms_branchTree items⟩
  refine conforms_node ⟨⟨leaf r.name.token, ?_, isToken_leaf _⟩, ?_⟩ (by simp +decide) ?_
  · rw [under_cons, if_pos rfl]
  · rw [Children.Each, under_cons, if_neg (by decide), under_cons, if_pos rfl]
    exact fun s hs => (hparts s hs).1
  · simpa using fun s hs => (hparts s hs).2

/-! ## Declarations -/

theorem OptionValue.role_mem (v : OptionValue) : v.role ∈ Lowering.valueRoles := by
  cases v <;> simp [OptionValue.role, Lowering.valueRoles]

theorem OptionValue.conforms {v : OptionValue} (h : NumbersRead [v.token]) : Conforms v.tree := by
  refine conforms_node (oneOf_single v.role_mem ⟨_, rfl, ?_⟩) (by simp) (by simp)
  intro hrole
  cases v with
  | number t => exact h t.token List.mem_cons_self t.kind_eq
  | _ => simp +decide [OptionValue.role] at hrole

theorem OptionEntry.conforms {o : OptionEntry} (h : NumbersRead o.tokens) : Conforms o.tree := by
  have hvalue : Conforms o.value.tree :=
    OptionValue.conforms (h.of_subset fun t ht => by simp_all [OptionEntry.tokens])
  refine conforms_node ⟨⟨leaf o.name.token, ?_, isToken_leaf _⟩,
    o.value.tree, ?_, isNode_node _ _⟩ (by simp +decide) ?_
  · rw [under_cons, if_pos rfl]
  · rw [under_cons, if_neg (by decide), under_cons, if_pos rfl]
  · simpa using hvalue

theorem Declaration.conforms {d : Declaration} (h : NumbersRead d.tokens) : Conforms d.tree := by
  refine conforms_node ⟨⟨leaf d.name.token, ?_, isToken_leaf _⟩, ?_⟩ (by simp +decide) ?_
  · rw [under_cons, if_pos rfl]
  · rw [Children.Each, under_cons, if_neg (by decide), under_cons, if_pos rfl]
    intro s hs
    obtain ⟨o, -, rfl⟩ := List.mem_map.mp hs
    exact isNode_node _ _
  · have hentry : ∀ o ∈ d.options.entries, Conforms o.tree := by
      intro o ho
      refine OptionEntry.conforms (h.of_subset fun t ht => ?_)
      simp [Declaration.tokens, OptionList.mem_tokens ho ht]
    simpa using hentry

/-! ## Fields -/

theorem conforms_rules (block : List Rule) :
    Conforms (node .rules [(Role.rules, block.map Rule.tree)]) := by
  refine conforms_node (each_single ?_) (by simp) (by simpa using fun r _ => r.conforms)
  intro s hs
  obtain ⟨r, -, rfl⟩ := List.mem_map.mp hs
  exact isNode_node _ _

/-- A field with a name and, under one more role, what only counts if it is
tokens. -/
theorem conforms_namedField (name : Token TokenKind) {kids : List Tree}
    (hrole : role = Role.tokens ∧ (∀ s ∈ kids, IsNode .token s) ∨ role = Role.value)
    (h : ∀ s ∈ kids, Conforms s) :
    Conforms (node .field [(Role.name, [leaf name]), (role, kids)]) := by
  have hdistinct : role ≠ Role.name ∧ role ≠ Role.rules := by
    rcases hrole with ⟨rfl, -⟩ | rfl <;> decide
  refine conforms_node (.inr ⟨?_, ⟨leaf name, ?_, isToken_leaf _⟩, ?_⟩) ?_ (by simpa using h)
  · simp [under_cons, hdistinct.2.symm, show Role.rules ≠ Role.name by decide]
  · rw [under_cons, if_pos rfl]
  · rw [Children.Each, under_cons, if_neg (by decide)]
    rcases hrole with ⟨rfl, htokens⟩ | rfl
    · rwa [under_cons, if_pos rfl]
    · simp +decide [under_cons]
  · simpa using hdistinct.1.symm

theorem Field.conforms {f : Field} (h : NumbersRead f.tokens) : Conforms f.tree := by
  cases f with
  | rules keyword spelled opening block closing =>
      exact conforms_node (.inl (one_single (isNode_node _ _))) (by simp)
        (by simpa using conforms_rules block)
  | declarations name notRules opening declared closing =>
      refine conforms_namedField _ (.inl ⟨rfl, ?_⟩) ?_
      · intro s hs
        obtain ⟨d, -, rfl⟩ := List.mem_map.mp hs
        exact isNode_node _ _
      · intro s hs
        obtain ⟨d, hd, rfl⟩ := List.mem_map.mp hs
        exact Declaration.conforms (h.of_subset fun t ht => Field.mem_tokens_of_declared hd ht)
  | setting name colon value =>
      refine conforms_namedField _ (.inr rfl) ?_
      have hvalue : Conforms value.tree :=
        OptionValue.conforms (h.of_subset fun t ht => by simp_all [Field.tokens])
      simpa using hvalue

/-- The tree of a derivation conforms if its numbers can be read. -/
theorem Derivation.conforms {d : Derivation} (h : NumbersRead d.tokens) : Conforms d.tree := by
  refine conforms_node (each_single ?_) (by simp) ?_
  · intro s hs
    obtain ⟨f, -, rfl⟩ := List.mem_map.mp hs
    cases f <;> exact isNode_node _ _
  · have hfield : ∀ f ∈ d, Conforms f.tree := fun f hf =>
      Field.conforms (h.of_subset fun t ht => List.mem_flatMap.mpr ⟨f, hf, ht⟩)
    simpa using hfield

end Rulebook.Surface

namespace Rulebook.Document

/-- The tree of a text conforms to the table of node kinds and roles. -/
theorem conforms_of_parse {text : String} {t : Tree} (h : parse text = .ok t) :
    t.IsNode .document ∧ t.Conforms := by
  obtain ⟨scan, d, hscan, htokens, rfl⟩ := Surface.exists_derivation_of_parse h
  refine ⟨⟨_, rfl⟩, Surface.Derivation.conforms ?_⟩
  rw [htokens]
  exact Lowering.numbersRead_scan hscan

end Rulebook.Document
