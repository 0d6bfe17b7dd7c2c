import Mathlib.Data.List.Forall2
import Rulebook.Grammar.Query
import Rulebook.Proofs.Language.Denotation
import Rulebook.Proofs.Lowering.WellFormed
import Rulebook.Proofs.Surface.Blocks

/-! # Lowering preserves languages

Whatever languages names and literals stand for, the body of a rule has the same
language before and after lowering. A group that is lowered to a list dissolves,
so the induction carries the language of what an item dissolves into.
-/

universe u

namespace Rulebook

open Computability
open Document (node leaf)

variable {α : Type*} (I : Interpretation α)

namespace Value

theorem sequenceLanguage_splice {v : Value} (h : v.elements? = none) :
    sequenceLanguage I (splice [v]) = v.language I := by
  rw [splice, Sequence.splice, List.flatMap_singleton, h]
  exact sequenceLanguage_singleton I v

/-- What a value dissolves into has the language of the value when it is closed. -/
theorem language_closeList (v : Value) :
    (Lowering.closeList v).language I = sequenceLanguage I (splice [v]) := by
  cases v with
  | list elements =>
      rw [Lowering.closeList, language, splice, Sequence.splice, List.flatMap_singleton]
      rfl
  | tuple elements =>
      rw [Lowering.closeList, language, splice, Sequence.splice, List.flatMap_singleton]
      · rfl
      · simp
  | _ => exact (sequenceLanguage_singleton I _).symm

end Value

namespace Surface

open Value Rulebook.Tree

theorem language_marked (label : Option Label) (suffix : Option Suffix) (v : Value) :
    sequenceLanguage I (splice [marked label suffix v]) =
      repeated (modifierData suffix) (sequenceLanguage I (splice [v])) := by
  unfold marked
  split
  · rfl
  · rw [sequenceLanguage_splice I rfl, Value.language, language_closeList]

/-- The language of a node with one role and one child there. -/
theorem language_wrapped (kind : NodeKind) (role : String) (t : Tree) :
    (node kind [(role, [t])]).language I =
      Denoted.language I kind [(role, [(t, t.language I)])] := by
  rw [language_node]
  rfl

theorem language_expression (t : Tree) :
    (node .expression [(Role.value, [t])]).language I = t.language I := by
  rw [language_wrapped]
  rfl

theorem language_group (t : Tree) :
    (node .scalar [(Role.group, [node .group [(Role.value,
      [node .expression [(Role.value, [t])]])]])]).language I = t.language I := by
  rw [language_wrapped, language_wrapped, language_wrapped]
  rfl

theorem language_item (label : Option Label) (scalar : Scalar) (suffix : Option Suffix) :
    (Item.mk label scalar suffix).tree.language I =
      repeated (modifierData suffix) (scalar.tree.language I) := by
  obtain ⟨children, hlanguage, hunder⟩ :=
    exists_children_of_language I .item _ (Lowering.itemRoles_nodup label scalar.tree suffix)
  have hfirst : (denoteRoles I children).first Role.scalar = scalar.tree.language I := by
    refine first_denoteRoles I ?_
    rw [hunder]
    simp +decide [Lowering.itemRoles, Lowering.under_cons]
  rw [Lowering.item_tree, hlanguage]
  simp only [Denoted.language, Denoted.item, uses_denoteRoles, hunder, hfirst]
  cases suffix with
  | none => simp +decide [Lowering.itemRoles, suffixRoles, Lowering.under_cons, modifierData, repeated]
  | some s =>
      cases s <;>
        simp +decide [Lowering.itemRoles, suffixRoles, Lowering.under_cons, modifierData, repeated]

theorem language_literal (role : String) (h : role = Role.singleQuoted ∨ role = Role.doubleQuoted)
    (t : Token TokenKind) :
    (node .scalar [(role, [leaf t])]).language I = I.text (Lowering.unquote t.lexeme) := by
  rw [language_wrapped]
  rcases h with rfl | rfl <;> rfl

theorem language_name (t : Token TokenKind) :
    (node .scalar [(Role.identifier, [leaf t])]).language I = I.name t.lexeme := by
  rw [language_wrapped]
  rfl

/-! ## Groups -/

/-- The languages of the parts between the bars of a group. -/
noncomputable def partLanguages (kids : List Tree) : List (Language α) :=
  (kids.splitOnP isBar).map fun part => (part.map (Tree.language I)).prod

theorem splitOnP_map {β γ : Type*} (f : β → γ) (p : γ → Bool) (xs : List β) :
    (xs.map f).splitOnP p = (xs.splitOnP fun x => p (f x)).map (List.map f) := by
  induction xs with
  | nil => rw [List.map_nil, List.splitOnP_nil, List.splitOnP_nil]; rfl
  | cons x rest ih =>
      rw [List.map_cons, List.splitOnP_cons_eq_if_modifyHead, List.splitOnP_cons_eq_if_modifyHead, ih]
      split
      · rfl
      · cases rest.splitOnP fun x => p (f x) <;> rfl

theorem language_choice {kids : List Tree} (h : kids ≠ []) :
    (node .choice [(Role.elements, kids)]).language I = (partLanguages I kids).sum := by
  obtain ⟨kid, rest, rfl⟩ := List.exists_cons_of_ne_nil h
  rw [language_node]
  simp only [List.filter_cons, List.isEmpty_cons, Bool.not_false, if_true, List.filter_nil,
    Denoted.language, Denoted.group, under_denoteRoles, Lowering.under_cons]
  rw [splitOnP_map, List.map_map, partLanguages]
  congr 2
  funext part
  rw [Function.comp_apply, List.map_map]
  rfl

theorem partLanguages_bar {t : Tree} (ht : t.isBar) (kids : List Tree) :
    partLanguages I (t :: kids) = 1 :: partLanguages I kids := by
  rw [partLanguages, List.splitOnP_cons_eq_if_modifyHead, if_pos ht]
  rfl

theorem partLanguages_item {t : Tree} (ht : t.isBar = false) (kids : List Tree) :
    partLanguages I (t :: kids) =
      (partLanguages I kids).modifyHead (t.language I * ·) := by
  rw [partLanguages, List.splitOnP_cons_eq_if_modifyHead, if_neg (by simp [ht]), partLanguages]
  cases kids.splitOnP isBar with
  | nil => rfl
  | cons part more =>
      rw [List.modifyHead_cons, List.map_cons, List.map_cons, List.map_cons, List.prod_cons]
      rfl

theorem language_groupValue {parts : List (List Value)} :
    sequenceLanguage I (splice [groupValue parts]) =
      (parts.map (sequenceLanguage I)).sum := by
  unfold groupValue
  split
  · next elements =>
      rw [splice, Sequence.splice, List.flatMap_singleton, List.map_singleton, List.sum_singleton]
      rfl
  · next hseveral =>
      rw [sequenceLanguage_splice I rfl, Value.language, unionLanguage_eq_sum]

-- An item that gives a list dissolves in the sequence around it, so what is
-- compared is the language of the spliced value, not that of the value.
mutual

theorem Item.language_tree (i : Item) :
    i.tree.language I = sequenceLanguage I (splice [i.value]) := by
  cases i with
  | mk label scalar suffix =>
      rw [language_item, Item.value, language_marked, scalar.language_tree]

theorem Scalar.language_tree (d : Scalar) :
    d.tree.language I = sequenceLanguage I (splice [d.value]) := by
  cases d with
  | singleQuoted literal =>
      rw [Scalar.tree, Scalar.value, language_literal I _ (.inl rfl), sequenceLanguage_splice I rfl,
        Value.language]
  | doubleQuoted literal =>
      rw [Scalar.tree, Scalar.value, language_literal I _ (.inr rfl), sequenceLanguage_splice I rfl,
        Value.language]
  | name name =>
      rw [Scalar.tree, Scalar.value, language_name, sequenceLanguage_splice I rfl, Value.language]
  | group opening first more closing =>
      have hparts : partLanguages I (first.tree :: elementTrees more) =
          (first.before (elementParts more)).map (sequenceLanguage I) :=
        first.language_tree (language_elementTrees more)
      rw [Scalar.tree, Scalar.value, language_group, language_choice I (List.cons_ne_nil _ _),
        language_groupValue, hparts]

/-- The parts of a group keep their languages when an element stands in front. -/
theorem Element.language_tree (e : Element) {kids : List Tree} {parts : List (List Value)}
    (h : partLanguages I kids = parts.map (sequenceLanguage I)) :
    partLanguages I (e.tree :: kids) = (e.before parts).map (sequenceLanguage I) := by
  cases e with
  | bar bar =>
      have hbar : (Document.leaf bar.token).isBar := by
        rw [Document.leaf, isBar, Token.toLeaf, Token.mapKind, bar.kind_eq, beq_self_eq_true]
      rw [Element.tree, Element.before, partLanguages_bar I hbar, h, List.map_cons, sequenceLanguage]
  | item i =>
      have hitem : i.tree.isBar = false := by
        cases i
        rw [Item.tree]
        rfl
      rw [Element.tree, Element.before, partLanguages_item I hitem, h, i.language_tree]
      cases parts with
      | nil => rfl
      | cons part more =>
          rw [List.map_cons, List.modifyHead_cons, List.modifyHead_cons, List.map_cons,
            sequenceLanguage_append]

theorem language_elementTrees (es : List Element) :
    partLanguages I (elementTrees es) = (elementParts es).map (sequenceLanguage I) := by
  cases es with
  | nil =>
      rw [elementTrees, elementParts, partLanguages, List.splitOnP_nil, List.map_singleton,
        List.map_singleton, sequenceLanguage]
      rfl
  | cons e rest =>
      rw [elementTrees, elementParts]
      exact e.language_tree (language_elementTrees rest)

end

/-! ## Rules -/

theorem prod_expressionTrees (items : Surface.Sequence) :
    ((expressionTrees items).map (Tree.language I)).prod =
      sequenceLanguage I (sequenceValues items) := by
  induction items with
  | nil => rfl
  | cons item rest ih =>
      rw [expressionTrees, List.map_cons, List.map_cons, List.prod_cons, language_expression,
        item.language_tree, sequenceValues_cons, sequenceLanguage_append, ← ih]
      rfl

theorem language_sequenceTree (items : Surface.Sequence) :
    (sequenceTree items).language I = sequenceLanguage I (sequenceValues items) := by
  obtain ⟨children, hlanguage, hunder⟩ :=
    exists_children_of_language I .sequence [(Role.expression, expressionTrees items)] (by simp)
  have hexpression : children.under Role.expression = expressionTrees items := by
    rw [hunder, Lowering.under_cons, if_pos rfl]
  rw [sequenceTree, hlanguage, Denoted.language, languages_denoteRoles, hexpression,
    prod_expressionTrees]

theorem language_branchTree (items : Surface.Sequence) :
    (branchTree items).language I = sequenceLanguage I (sequenceValues items) := by
  rw [branchTree, language_wrapped, ← language_sequenceTree]
  rfl

/-- The body of a rule keeps its language. -/
theorem language_rule_tree (r : Rule) : r.tree.language I = sequenceLanguage I r.body := by
  obtain ⟨children, hlanguage, hunder⟩ :=
    exists_children_of_language I .rule
      [(Role.name, [leaf r.name.token]), (Role.body, r.bodyTrees)] (by simp +decide)
  have hbody : children.under Role.body = r.bodyTrees := by
    rw [hunder, Lowering.under_cons, if_neg (by decide), Lowering.under_cons, if_pos rfl]
  rw [Rule.tree, hlanguage, Denoted.language, languages_denoteRoles, hbody, Rule.bodyTrees, Rule.body]
  split
  · rw [List.map_singleton, List.sum_singleton, language_sequenceTree]
  · rw [sequenceLanguage_singleton, Value.language, unionLanguage_eq_sum, List.map_map, List.map_map]
    congr 1
    refine List.map_congr_left ?_
    intro items hitems
    exact language_branchTree I items

end Surface

/-! ## Documents -/

namespace Tree

/-- The children of a tree under a role. -/
def under (t : Tree) (role : String) : List Tree := ((t.children?).getD []).under role

/-- The rules in the tree of a document, in order. -/
def rules (document : Tree) : List Tree :=
  (document.under Role.fields).flatMap fun field =>
    (field.under Role.rules).flatMap fun block => block.under Role.rules

/-- The name of the rule that a tree stands for. -/
def ruleName? (t : Tree) : Option String :=
  match t.under Role.name with
  | .leaf name :: _ => some name.lexeme
  | _ => none

end Tree

namespace Surface

/-- A role of a node holds what it was given, also if that is nothing. -/
theorem under_node (kind : NodeKind) {roles : Children} (h : (roles.map Prod.fst).Nodup)
    (role : String) : (node kind roles).under role = Children.under roles role :=
  Lowering.under_filter h role

theorem Derivation.rules_tree (d : Derivation) : d.tree.rules = d.rules.map Rule.tree := by
  have hfields : d.tree.under Role.fields = d.map Field.tree := by
    rw [Derivation.tree, under_node _ (by simp), Lowering.under_cons, if_pos rfl]
  have hfield : ∀ f : Field, ((f.tree.under Role.rules).flatMap fun block =>
      block.under Role.rules) = f.blockRules.map Rule.tree := by
    intro f
    cases f with
    | rules keyword spelled opening block closing =>
        rw [Field.tree, under_node _ (by simp), Lowering.under_cons, if_pos rfl,
          List.flatMap_singleton, under_node _ (by simp), Lowering.under_cons, if_pos rfl]
        rfl
    | declarations name notRules opening declared closing =>
        rw [Field.tree, under_node _ (by simp +decide)]
        simp +decide [Lowering.under_cons, Field.blockRules]
    | setting name colon value =>
        rw [Field.tree, under_node _ (by simp +decide)]
        simp +decide [Lowering.under_cons, Field.blockRules]
  rw [Tree.rules, hfields, Derivation.rules, List.flatMap_map, List.map_flatMap]
  exact List.flatMap_congr fun f _ => hfield f

/-- A field that is named holds no rules, whatever its name. -/
theorem rules_namedFieldValue (name : String) (declared : List Declared) :
    Value.rules [namedFieldValue name declared] = [] := by
  rw [namedFieldValue]
  by_cases hsection : name = "tokens"
  · rw [if_pos hsection]
    rfl
  · rw [if_neg hsection]
    rfl

theorem Derivation.rules_value (d : Derivation) :
    Value.rules (d.map Field.value) = d.rules.map Rule.value := by
  have hfield : ∀ f : Field, Value.rules [f.value] = f.blockRules.map Rule.value := by
    intro f
    cases f with
    | rules keyword spelled opening block closing => exact List.flatMap_singleton _ _
    | declarations name notRules opening declared closing => exact rules_namedFieldValue _ _
    | setting name colon value => exact rules_namedFieldValue _ _
  rw [Value.rules, Derivation.rules, List.flatMap_map, List.map_flatMap]
  refine List.flatMap_congr ?_
  intro f hf
  rw [← hfield f, Value.rules, List.flatMap_singleton]

theorem Rule.ruleName?_tree (r : Rule) : r.tree.ruleName? = some r.name.token.lexeme := by
  have hname : r.tree.under Role.name = [leaf r.name.token] := by
    rw [Rule.tree, under_node _ (by simp +decide), Lowering.under_cons, if_pos rfl]
  rw [Tree.ruleName?, hname]
  rfl

end Surface

/-- The name and, under every interpretation, the language of a rule are the same
in a tree and in what it is lowered to. -/
structure SameRule (t : Tree) (name : String) (body : List Value) : Prop where
  name_eq : t.ruleName? = some name
  language_eq : ∀ {α : Type u} (I : Interpretation α),
    t.language I = Value.sequenceLanguage I body

/-- The rules of a document that is parsed are those of its grammar, in order, and
each keeps its name and the language of its body. -/
theorem lower_preserves_languages {text : String} {t : Tree} (h : Document.parse text = .ok t) :
    ∃ fields, Lowering.lower t = .ok (.grammar fields) ∧
      List.Forall₂ (fun tree rule => ∃ name body,
          rule = .ruleDef (.string name) body ∧ SameRule.{u} tree name body)
        t.rules (Value.rules fields) := by
  obtain ⟨scan, d, hscan, htokens, rfl⟩ := Surface.exists_derivation_of_parse h
  have hnumbers : Lowering.NumbersRead d.tokens := by
    rw [htokens]
    exact Lowering.numbersRead_scan hscan
  refine ⟨d.map Surface.Field.value, Lowering.lower_tree hnumbers, ?_⟩
  rw [d.rules_tree, d.rules_value, List.forall₂_map_left_iff, List.forall₂_map_right_iff,
    List.forall₂_same]
  intro r hr
  exact ⟨_, _, rfl, r.ruleName?_tree, fun I => Surface.language_rule_tree I r⟩

/-- Two rules, with empty parts in a group and in a leading alternative. -/
theorem lower_preserves_nestedBars :
    ∃ t fields,
      Document.parse "rules \x7b r: | x=((a)? |)+ ('b' c)*; s: ((a) b)?; \x7d" = .ok t ∧
      Lowering.lower t = .ok (.grammar fields) ∧
      List.Forall₂ (fun tree rule => ∃ name body,
          rule = .ruleDef (.string name) body ∧ SameRule.{0} tree name body)
        t.rules (Value.rules fields) := by
  have hparse : (Document.parse
      "rules \x7b r: | x=((a)? |)+ ('b' c)*; s: ((a) b)?; \x7d").isOk := by cbv
  obtain ⟨t, ht⟩ := exists_of_isOk hparse
  obtain ⟨fields, hlower, hrules⟩ := lower_preserves_languages ht
  exact ⟨t, fields, ht, hlower, hrules⟩

end Rulebook
