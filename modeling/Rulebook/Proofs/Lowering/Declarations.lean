import Rulebook.Proofs.Language.Preservation

/-! # Fields, declarations and rules of a document

A grammar has as many fields as the document that it is lowered from, as many tokens as there
are declarations in the fields that are named `tokens`, and as many rules as there are in the
blocks of rules.
-/

namespace Rulebook

namespace Tree

/-- Whether the first name in a tree is this one. -/
def isNamed (name : String) (t : Tree) : Bool :=
  match t.under Role.name with
  | .leaf first :: _ => first.lexeme = name
  | _ => false

/-- The declarations in the tree of a document that stand in a token section, in order. -/
def declarations (document : Tree) : List Tree :=
  (document.under Role.fields).flatMap fun field =>
    if field.isNamed "tokens" then field.under Role.tokens else []

end Tree

namespace Surface

open Document (node leaf)

/-- The declarations of a field, if it is a token section. -/
def Field.sectionDeclarations : Field → List Declaration
  | .declarations name _ _ declared _ =>
      if name.token.lexeme = "tokens" then declared.map Declared.declaration else []
  | _ => []

/-- The declarations in the token sections of a derivation, in order. -/
def Derivation.sectionDeclarations (d : Derivation) : List Declaration :=
  d.flatMap Field.sectionDeclarations

theorem Derivation.fields_tree (d : Derivation) : d.tree.under Role.fields = d.map Field.tree := by
  rw [Derivation.tree, under_node _ (by simp), Lowering.under_cons, if_pos rfl]

theorem isNamed_node {kind : NodeKind} {name : Token TokenKind} {roles : Children}
    (h : (((Role.name, [leaf name]) :: roles).map Prod.fst).Nodup) (wanted : String) :
    (node kind ((Role.name, [leaf name]) :: roles)).isNamed wanted =
      decide (name.lexeme = wanted) := by
  rw [Tree.isNamed, under_node _ h, Lowering.under_cons, if_pos rfl]
  rfl

theorem Field.sectionDeclarations_tree (f : Field) :
    (if f.tree.isNamed "tokens" then f.tree.under Role.tokens else []) =
      f.sectionDeclarations.map Declaration.tree := by
  cases f with
  | rules keyword spelled opening block closing =>
      have hname : (Field.rules keyword spelled opening block closing).tree.isNamed "tokens" = false := by
        rw [Field.tree, Tree.isNamed, under_node _ (by simp)]
        simp +decide [Lowering.under_cons]
      rw [hname]
      rfl
  | declarations name notRules opening declared closing =>
      rw [Field.tree, isNamed_node (by simp +decide), under_node _ (by simp +decide)]
      by_cases h : name.token.lexeme = "tokens" <;>
        simp +decide [h, Lowering.under_cons, Field.sectionDeclarations]
  | setting name colon value =>
      rw [Field.tree, under_node _ (by simp +decide)]
      simp +decide [Lowering.under_cons, Field.sectionDeclarations]

theorem Derivation.declarations_tree (d : Derivation) :
    d.tree.declarations = d.sectionDeclarations.map Declaration.tree := by
  rw [Tree.declarations, d.fields_tree, Derivation.sectionDeclarations, List.flatMap_map,
    List.map_flatMap]
  exact List.flatMap_congr fun f _ => f.sectionDeclarations_tree

theorem tokens_namedFieldValue (name : String) (declared : List Declared) :
    Value.tokens [namedFieldValue name declared] =
      if name = "tokens" then declared.map fun d => d.declaration.value else [] := by
  rw [namedFieldValue]
  split
  · exact List.flatMap_singleton _ _
  · rfl

theorem Field.tokens_value (f : Field) :
    Value.tokens [f.value] = f.sectionDeclarations.map Declaration.value := by
  cases f with
  | rules keyword spelled opening block closing => rfl
  | declarations name notRules opening declared closing =>
      rw [Field.value, tokens_namedFieldValue, Field.sectionDeclarations]
      split
      · rw [List.map_map]
        rfl
      · rfl
  | setting name colon value =>
      rw [Field.value, tokens_namedFieldValue]
      split <;> rfl

theorem Derivation.tokens_value (d : Derivation) :
    Value.tokens (d.map Field.value) = d.sectionDeclarations.map Declaration.value := by
  rw [Value.tokens, Derivation.sectionDeclarations, List.flatMap_map, List.map_flatMap]
  refine List.flatMap_congr ?_
  intro f _
  rw [← f.tokens_value, Value.tokens, List.flatMap_singleton]

end Surface

/-- Lowering keeps the numbers of fields, of declarations in token sections, and of rules. -/
theorem Lowering.exists_fields {text : String} {t : Tree} (h : Document.parse text = .ok t) :
    ∃ fields, lower t = .ok (.grammar fields) ∧
      fields.length = (t.under Role.fields).length ∧
      (Value.tokens fields).length = t.declarations.length ∧
      (Value.rules fields).length = t.rules.length := by
  obtain ⟨scan, d, hscan, htokens, rfl⟩ := Surface.exists_derivation_of_parse h
  have hnumbers : NumbersRead d.tokens := by
    rw [htokens]
    exact numbersRead_scan hscan
  refine ⟨d.map Surface.Field.value, lower_tree hnumbers, ?_, ?_, ?_⟩
  · rw [d.fields_tree, List.length_map, List.length_map]
  · rw [d.tokens_value, d.declarations_tree, List.length_map, List.length_map]
  · rw [d.rules_value, d.rules_tree, List.length_map, List.length_map]

end Rulebook
