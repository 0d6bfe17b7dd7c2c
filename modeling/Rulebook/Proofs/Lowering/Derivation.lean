import Rulebook.Proofs.Lowering.Visits
import Rulebook.Proofs.Sequence
import Rulebook.Proofs.Surface.Syntax

/-! # The value of a derivation

What lowering makes of the tree of a derivation, read off the derivation itself.
An item without label and suffix gives what its scalar gives; a group without a
bar gives a list, which dissolves in the sequence around it.
-/

namespace Rulebook.Surface

open Lowering (unquote closeList)

/-- The name of a label, as data. -/
def labelData : Option Label → Json
  | none => .null
  | some label => .string label.name.token.lexeme

/-- The modifier that a suffix stands for, as data. -/
def modifierData : Option Suffix → Json
  | none => .null
  | some (.optional _) => .string "optional"
  | some (.many _) => .string "many"
  | some (.many1 _) => .string "many1"

/-- A value with a label and a suffix, if there is one of them. -/
def marked (label : Option Label) (suffix : Option Suffix) (value : Value) : Value :=
  match label, suffix with
  | none, none => value
  | _, _ => .named (closeList value) (labelData label) (modifierData suffix)

/-- The value of a group from its parts: one part is a list, several are a
choice. -/
def groupValue (parts : List (List Value)) : Value :=
  match parts with
  | [elements] => .list elements
  | _ => .choice parts

mutual

/-- The value of an item. -/
def Item.value : Item → Value
  | .mk label scalar suffix => marked label suffix scalar.value

/-- The value of a scalar. -/
def Scalar.value : Scalar → Value
  | .singleQuoted literal => .string (.string (unquote literal.token.lexeme))
  | .doubleQuoted literal => .string (.string (unquote literal.token.lexeme))
  | .name name => .ref (.string name.token.lexeme)
  | .group _ first more _ => groupValue (first.before (elementParts more))

/-- The parts of a group that an element stands in front of: a bar opens a new
part, and an item is spliced into the first one. -/
def Element.before : Element → List (List Value) → List (List Value)
  | .bar _, parts => [] :: parts
  | .item item, parts => parts.modifyHead (Value.splice [item.value] ++ ·)

/-- The parts between the bars of a group. -/
def elementParts : List Element → List (List Value)
  | [] => [[]]
  | element :: rest => element.before (elementParts rest)

end

/-- The elements of a sequence. -/
def sequenceValues (items : Sequence) : List Value := Value.splice (items.map Item.value)

/-- The body of a rule: the elements of its sequence, or one choice between its
branches. -/
def Rule.body (r : Rule) : List Value :=
  if r.alternatives.isEmpty then sequenceValues r.lead
  else [.choice (r.branches.map sequenceValues)]

/-- The value of a rule. -/
def Rule.value (r : Rule) : Value := .ruleDef (.string r.name.token.lexeme) r.body

/-- The value of an option. A number that is none in writing has no value. -/
def OptionValue.value : OptionValue → Value
  | .number t => .number ((Lowering.numberValue? t.token.lexeme).getD .null)
  | .regex t => Lowering.regexValue t.token.lexeme
  | .doubleQuoted t => .string (.string (unquote t.token.lexeme))
  | .singleQuoted t => .string (.string (unquote t.token.lexeme))
  | .true _ _ => .boolean (.bool Bool.true)
  | .false _ _ => .boolean (.bool Bool.false)
  | .name t _ _ => .identifier (.string t.token.lexeme)

/-- Options after one more of them. -/
def putEntry (options : List (Value × Value)) (entry : OptionEntry) : List (Value × Value) :=
  Value.putOption options (.data (.string entry.name.token.lexeme)) entry.value.value

/-- The value of a declaration: the last option of a name counts. -/
def Declaration.value (d : Declaration) : Value :=
  .tokenDef (.string d.name.token.lexeme) (d.options.entries.foldl putEntry [])

/-- The value of a field with a name and declarations. -/
def namedFieldValue (name : String) (declared : List Declared) : Value :=
  if name = "tokens" then
    .tokenSection (declared.map fun d => d.declaration.value) (.string "tokens")
  else .otherField (.string name)

/-- The value of a field. -/
def Field.value : Field → Value
  | .rules _ _ _ block _ => .rulesField (block.map Rule.value) (.string "rules")
  | .declarations name _ _ declared _ => namedFieldValue name.token.lexeme declared
  | .setting name _ _ => namedFieldValue name.token.lexeme []

/-- The grammar of a derivation. -/
def Derivation.value (d : Derivation) : Value := .grammar (d.map Field.value)

theorem splice_cons (v : Value) (vs : List Value) :
    Value.splice (v :: vs) = Value.splice [v] ++ Value.splice vs := by
  simp [Value.splice, Sequence.splice]

theorem sequenceValues_cons (item : Item) (rest : Sequence) :
    sequenceValues (item :: rest) = Value.splice [item.value] ++ sequenceValues rest :=
  splice_cons _ _

theorem Scalar.value_isNone (d : Scalar) : d.value.isNone = false := by
  cases d with
  | group opening first more closing =>
      unfold Scalar.value groupValue
      split <;> rfl
  | _ => rfl

theorem Scalar.isAbsent_tree (d : Scalar) : d.tree.isAbsent = false := by
  cases d <;> (rw [Scalar.tree]; rfl)

end Rulebook.Surface

namespace Rulebook.Lowering

open Surface
open Document (node leaf)

/-! ## Bodies of rules -/

theorem lower_expression (t : Tree) :
    lower (node .expression [(Role.value, [t])]) = lower t := by
  rw [lower_node]
  simp [ruleFor, expression, under_cons]

theorem lower_group (kind : NodeKind) (roles : Children) :
    lower (node .group [(Role.value, [node kind roles])]) = lower (node kind roles) := by
  rw [lower_node]
  simp [ruleFor, group, under_cons, Children.first?, node, Tree.isAbsent]

theorem lower_scalar_group (kind : NodeKind) (roles : Children) :
    lower (node .scalar [(Role.group, [node kind roles])]) = lower (node kind roles) := by
  rw [lower_node]
  simp +decide [ruleFor, scalar, under_cons]

theorem lower_scalar_literal (t : Token TokenKind) (role : String)
    (h : role = Role.singleQuoted ∨ role = Role.doubleQuoted) :
    lower (node .scalar [(role, [leaf t])]) = .ok (.string (.string (unquote t.lexeme))) := by
  have hlexeme : lexeme? (outcomes [(role, [leaf t])]) role = .ok (some t.lexeme) :=
    lexeme?_of_under_cons (by rw [under_cons, if_pos rfl])
  rw [lower_node]
  rcases h with rfl | rfl
  · simp [ruleFor, scalar, literal, under_cons, hlexeme]
  · simp +decide [ruleFor, scalar, literal, under_cons, hlexeme]

theorem lower_scalar_name (t : Token TokenKind) :
    lower (node .scalar [(Role.identifier, [leaf t])]) = .ok (.ref (.string t.lexeme)) := by
  have hlexeme : lexeme? (outcomes [(Role.identifier, [leaf t])]) Role.identifier =
      .ok (some t.lexeme) := lexeme?_of_under_cons (by rw [under_cons, if_pos rfl])
  rw [lower_node]
  simp +decide [ruleFor, scalar, under_cons, hlexeme, Value.textData]

/-- The roles of an item, some of which may be without children. -/
def itemRoles (label : Option Label) (t : Tree) (suffix : Option Suffix) : Children :=
  [(Role.name, labelTrees label), (Role.scalar, [t])] ++ suffixRoles suffix

theorem item_tree (label : Option Label) (scalar : Scalar) (suffix : Option Suffix) :
    (Item.mk label scalar suffix).tree = node .item (itemRoles label scalar.tree suffix) := by
  rw [Item.tree]
  rfl

theorem itemRoles_nodup (label : Option Label) (t : Tree) (suffix : Option Suffix) :
    ((itemRoles label t suffix).map Prod.fst).Nodup := by
  cases suffix with
  | none => simp +decide [itemRoles, suffixRoles]
  | some s => cases s <;> simp +decide [itemRoles, suffixRoles]

theorem modifier_outcomes {label : Option Label} {t : Tree} {suffix : Option Suffix}
    {children : Children}
    (h : ∀ role, children.under role = Children.under (itemRoles label t suffix) role) :
    modifier (outcomes children) = modifierData suffix := by
  unfold modifier
  simp only [isUsed_outcomes, h]
  cases suffix with
  | none => simp +decide [itemRoles, suffixRoles, under_cons, modifierData]
  | some s => cases s <;> simp +decide [itemRoles, suffixRoles, under_cons, modifierData]

theorem lower_item {label : Option Label} {suffix : Option Suffix} {t : Tree} {v : Value}
    (hnode : t.isAbsent = false) (h : lower t = .ok v) (hvalue : v.isNone = false) :
    lower (node .item (itemRoles label t suffix)) = .ok (marked label suffix v) := by
  obtain ⟨children, hlower, hunder⟩ :=
    exists_children_of_node .item _ (itemRoles_nodup label t suffix)
  have hscalar : children.under Role.scalar = [t] := by
    rw [hunder]
    simp +decide [itemRoles, under_cons]
  have hlexeme : lexeme? (outcomes children) Role.name =
      .ok (label.map fun l => l.name.token.lexeme) := by
    have hname : children.under Role.name = labelTrees label := by
      rw [hunder]
      simp [itemRoles, under_cons]
    cases label with
    | none => exact lexeme?_of_under_nil hname
    | some l => exact lexeme?_of_under_cons hname
  have hfirst : children.first? Role.scalar = some t := by
    simp [Children.first?, hscalar, hnode]
  rw [hlower]
  simp only [ruleFor, item, outcomes_children, hfirst, first_outcomes, hscalar, List.head?_cons,
    Option.getD_some, h, ok_bind, hvalue, Bool.false_eq_true, if_false, hlexeme,
    modifier_outcomes hunder, pure_eq_ok]
  cases label with
  | none =>
      cases suffix with
      | none => rfl
      | some s => cases s <;> rfl
  | some l => rfl

/-! ## Groups -/

/-- What a part of a group gives. -/
abbrev partOutcome (part : List (Tree × Outcome Value)) : Outcome (List Value) := do
  return Value.splice (← part.mapM Prod.snd)

theorem isNodeOf_leaf (t : Token TokenKind) (kind : String) : (leaf t).isNodeOf kind = false := rfl

theorem isNodeOf_node (kind : NodeKind) (roles : Children) :
    (node kind roles).isNodeOf kind.name = true := by
  simp [node, Tree.isNodeOf]

theorem partOutcome_cons {t : Tree} {v : Value} {part : List (Tree × Outcome Value)}
    {values : List Value} (h : lower t = .ok v) (hpart : partOutcome part = .ok values) :
    partOutcome ((t, lower t) :: part) = .ok (Value.splice [v] ++ values) := by
  unfold partOutcome at hpart ⊢
  rw [List.mapM_cons, h, ok_bind]
  cases hmap : part.mapM Prod.snd with
  | error e => rw [hmap] at hpart; cases hpart
  | ok vs =>
      rw [hmap, ok_bind, pure_eq_ok] at hpart
      cases hpart
      rw [ok_bind, pure_eq_ok, ok_bind, pure_eq_ok, splice_cons]

/-- Whether a child of a group stands between its parts. -/
abbrev isBar (kid : Tree × Outcome Value) : Bool := !kid.1.isNodeOf NodeKind.item.name

/-- The outcomes of the parts of a group. -/
abbrev partOutcomes (kids : List (Tree × Outcome Value)) : Outcome (List (List Value)) :=
  (Sequence.groups isBar kids).mapM partOutcome

theorem partOutcomes_bar {t : Tree} (ht : t.isNodeOf NodeKind.item.name = false)
    {kids : List (Tree × Outcome Value)} {parts : List (List Value)}
    (h : partOutcomes kids = .ok parts) :
    partOutcomes ((t, lower t) :: kids) = .ok ([] :: parts) := by
  unfold partOutcomes at h ⊢
  rw [Sequence.groups, if_pos (by simp [isBar, ht]), List.mapM_cons, h]
  rfl

theorem partOutcomes_item {t : Tree} {v : Value} (ht : t.isNodeOf NodeKind.item.name = true)
    (hv : lower t = .ok v) {kids : List (Tree × Outcome Value)} {parts : List (List Value)}
    (h : partOutcomes kids = .ok parts) :
    partOutcomes ((t, lower t) :: kids) = .ok (parts.modifyHead (Value.splice [v] ++ ·)) := by
  unfold partOutcomes at h ⊢
  rw [Sequence.groups, if_neg (by simp [isBar, ht])]
  cases hgroups : Sequence.groups isBar kids with
  | nil => exact absurd hgroups (Sequence.groups_ne_nil _ kids)
  | cons part more =>
      rw [hgroups, List.mapM_cons] at h
      cases hpart : partOutcome part with
      | error e => rw [hpart] at h; cases h
      | ok values =>
          rw [hpart, ok_bind] at h
          cases hmore : more.mapM partOutcome with
          | error e => rw [hmore] at h; cases h
          | ok rest =>
              rw [hmore] at h
              cases h
              simp only [List.mapM_cons, partOutcome_cons hv hpart, hmore, ok_bind, pure_eq_ok,
                List.modifyHead_cons]

/-- A group with a child in it lowers to what its parts make. The role of the
children is in use, so the node is as it stands. -/
theorem lower_choice {kids : List Tree} {parts : List (List Value)} (hkids : kids ≠ [])
    (h : partOutcomes (kids.map fun t => (t, lower t)) = .ok parts) :
    lower (node .choice [(Role.elements, kids)]) = .ok (groupValue parts) := by
  obtain ⟨kid, rest, rfl⟩ := List.exists_cons_of_ne_nil hkids
  rw [lower_node]
  simp only [List.filter_cons, List.isEmpty_cons, Bool.not_false, if_true, List.filter_nil,
    ruleFor, choice, outcomes_under, under_cons]
  have hparts := h
  unfold partOutcomes partOutcome at hparts
  rw [hparts, ok_bind]
  match parts with
  | [elements] => rfl
  | [] => rfl
  | part :: next :: more => rfl

-- The induction is on the derivation. A group hands on the outcomes of its parts,
-- from the last element to the first, since an item joins the part behind it.
mutual

/-- An item lowers to its value. -/
theorem lower_item_tree (i : Item) : lower i.tree = .ok i.value := by
  cases i with
  | mk label scalar suffix =>
      rw [item_tree, Item.value]
      exact lower_item scalar.isAbsent_tree (lower_scalar_tree scalar) scalar.value_isNone

/-- A scalar lowers to its value. -/
theorem lower_scalar_tree (d : Scalar) : lower d.tree = .ok d.value := by
  cases d with
  | singleQuoted literal =>
      rw [Scalar.tree, Scalar.value]
      exact lower_scalar_literal literal.token Role.singleQuoted (.inl rfl)
  | doubleQuoted literal =>
      rw [Scalar.tree, Scalar.value]
      exact lower_scalar_literal literal.token Role.doubleQuoted (.inr rfl)
  | name name =>
      rw [Scalar.tree, Scalar.value]
      exact lower_scalar_name name.token
  | group opening first more closing =>
      rw [Scalar.tree, Scalar.value]
      have hparts : partOutcomes ((first.tree :: elementTrees more).map fun t => (t, lower t)) =
          .ok (first.before (elementParts more)) :=
        lower_element first (lower_elements more)
      rw [lower_scalar_group, lower_group, lower_expression]
      exact lower_choice (List.cons_ne_nil _ _) hparts

/-- An element of a group stands in front of the parts behind it. -/
theorem lower_element (e : Element) {kids : List (Tree × Outcome Value)}
    {parts : List (List Value)} (h : partOutcomes kids = .ok parts) :
    partOutcomes ((e.tree, lower e.tree) :: kids) = .ok (e.before parts) := by
  cases e with
  | bar bar =>
      rw [Element.tree, Element.before]
      exact partOutcomes_bar (isNodeOf_leaf _ _) h
  | item i =>
      rw [Element.tree, Element.before]
      have hnode : i.tree.isNodeOf NodeKind.item.name = true := by
        cases i
        rw [Item.tree]
        exact isNodeOf_node _ _
      exact partOutcomes_item hnode (lower_item_tree i) h

/-- The elements of a group lower to its parts. -/
theorem lower_elements (es : List Element) :
    partOutcomes ((elementTrees es).map fun t => (t, lower t)) = .ok (elementParts es) := by
  cases es with
  | nil => rw [elementTrees, elementParts]; rfl
  | cons e rest =>
      rw [elementTrees, elementParts]
      exact lower_element e (lower_elements rest)

end

end Rulebook.Lowering
