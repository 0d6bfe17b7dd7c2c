import Rulebook.Proofs.Lowering.Derivation
import Rulebook.Proofs.Surface.Leaves
import Rulebook.Proofs.Tree.Outline
import Rulebook.Tree.Visitor

/-! # The outline of a document

The parser makes nodes whose kinds and roles are words, and leaves out a role without children.
So the outline of a text that is parsed can be read back: two outlines are the same exactly if
the trees are, but for the places of their tokens. It has one line for each node and each
token, whatever characters the lexemes hold.
-/

namespace Rulebook

/-- The roles in the tree of a document. -/
def Role.all : List String :=
  [fields, rules, name, tokens, options, value, number, regex, doubleQuoted, singleQuoted,
   identifier, Role.true, Role.false, body, expression, elements, scalar, group, optional, many,
   many1]

theorem isWord_iff {s : String} :
    IsWord s ↔ (!s.toList.isEmpty && s.toList.all Piece.isIdentifierPart) = true := by
  simp [IsWord]

instance (s : String) : Decidable (IsWord s) := decidable_of_iff _ isWord_iff.symm

theorem Role.isWord_of_mem : ∀ role ∈ all, IsWord role := by decide

theorem NodeKind.isWord_name (kind : NodeKind) : IsWord kind.name := by
  cases kind <;> decide

theorem TokenKind.isWord_name (kind : TokenKind) : IsWord kind.name := by
  cases kind <;> decide

namespace Surface

open Document (node leaf)
open Rulebook.Tree (IsLabeled)

variable {kind : NodeKind} {roles : Children} {role : String} {t : Tree}

@[simp] theorem isLabeled_leaf (t : Token TokenKind) : IsLabeled (leaf t) :=
  .leaf t.kind.isWord_name

/-- A node that is given each of its roles once can be read back if its children can. -/
theorem isLabeled_node (distinct : (roles.map Prod.fst).Nodup)
    (known : ∀ entry ∈ roles, entry.1 ∈ Role.all)
    (kids : ∀ entry ∈ roles, ∀ s ∈ entry.2, IsLabeled s) : IsLabeled (node kind roles) := by
  refine .node kind.isWord_name (distinct.sublist (List.filter_sublist.map _)) ?_ ?_
  · intro entry hentry
    obtain ⟨hmem, hused⟩ := List.mem_filter.mp hentry
    exact ⟨Role.isWord_of_mem _ (known entry hmem), by simpa using hused⟩
  · exact fun entry hentry => kids entry (List.mem_of_mem_filter hentry)

theorem isLabeled_single (known : role ∈ Role.all) (h : IsLabeled t) :
    IsLabeled (node kind [(role, [t])]) :=
  isLabeled_node (by simp) (by simpa using known) (by simpa using h)

/-- A node with a name and children under one more role. -/
theorem isLabeled_named (name : Token TokenKind) {kids : List Tree} (known : role ∈ Role.all)
    (hne : role ≠ Role.name) (h : ∀ s ∈ kids, IsLabeled s) :
    IsLabeled (node kind [(Role.name, [leaf name]), (role, kids)]) :=
  isLabeled_node (by simpa using hne.symm) (by simpa [Role.all] using known) (by simpa using h)

/-! ## Bodies of rules -/

theorem isLabeled_item (label : Option Label) (suffix : Option Suffix) (h : IsLabeled t) :
    IsLabeled (node .item (Lowering.itemRoles label t suffix)) := by
  have hlabel : ∀ s ∈ labelTrees label, IsLabeled s := by
    cases label <;> simp [labelTrees]
  have hsuffix : ∀ entry ∈ suffixRoles suffix,
      entry.1 ∈ Role.all ∧ ∀ s ∈ entry.2, IsLabeled s := by
    cases suffix with
    | none => simp [suffixRoles]
    | some s => cases s <;> simp [suffixRoles, Role.all]
  refine isLabeled_node (Lowering.itemRoles_nodup label t suffix) ?_ ?_
  · rw [Lowering.itemRoles, List.forall_mem_append]
    exact ⟨by simp [Role.all], fun entry hentry => (hsuffix entry hentry).1⟩
  · rw [Lowering.itemRoles, List.forall_mem_append]
    exact ⟨by simpa [h] using hlabel, fun entry hentry => (hsuffix entry hentry).2⟩

mutual

theorem Item.isLabeled (d : Item) : IsLabeled d.tree := by
  cases d with
  | mk label scalar suffix =>
      rw [Lowering.item_tree]
      exact isLabeled_item label suffix scalar.isLabeled

theorem Scalar.isLabeled (d : Scalar) : IsLabeled d.tree := by
  cases d with
  | singleQuoted | doubleQuoted | name =>
      rw [Scalar.tree]
      exact isLabeled_single (by simp [Role.all]) (isLabeled_leaf _)
  | group opening first more closing =>
      rw [Scalar.tree]
      have hchoice : IsLabeled (node .choice [(Role.elements, first.tree :: elementTrees more)]) :=
        isLabeled_node (by simp) (by simp [Role.all])
          (by simpa [first.isLabeled] using isLabeled_elementTrees more)
      have hvalue : Role.value ∈ Role.all := by simp [Role.all]
      exact isLabeled_single (by simp [Role.all])
        (isLabeled_single hvalue (isLabeled_single hvalue hchoice))

theorem Element.isLabeled (d : Element) : IsLabeled d.tree := by
  cases d with
  | bar bar =>
      rw [Element.tree]
      exact isLabeled_leaf _
  | item item =>
      rw [Element.tree]
      exact item.isLabeled

theorem isLabeled_elementTrees (ds : List Element) : ∀ s ∈ elementTrees ds, IsLabeled s := by
  cases ds with
  | nil => simp [elementTrees]
  | cons d rest =>
      rw [elementTrees]
      exact List.forall_mem_cons.mpr ⟨d.isLabeled, isLabeled_elementTrees rest⟩

end

theorem isLabeled_sequenceTree (items : Sequence) : IsLabeled (sequenceTree items) := by
  refine isLabeled_node (by simp) (by simp [Role.all]) ?_
  simpa [expressionTrees] using
    fun item (_ : item ∈ items) => isLabeled_single (by simp [Role.all]) item.isLabeled

theorem Rule.isLabeled (r : Rule) : IsLabeled r.tree := by
  refine isLabeled_named _ (by simp [Role.all]) (by decide) fun s hs => ?_
  unfold Rule.bodyTrees at hs
  split at hs
  · rw [List.mem_singleton.mp hs]
    exact isLabeled_sequenceTree _
  · obtain ⟨items, -, rfl⟩ := List.mem_map.mp hs
    exact isLabeled_single (by simp [Role.all]) (isLabeled_sequenceTree items)

/-! ## Declarations and fields -/

theorem OptionValue.isLabeled (v : OptionValue) : IsLabeled v.tree := by
  refine isLabeled_single ?_ (isLabeled_leaf _)
  cases v <;> simp [OptionValue.role, Role.all]

theorem OptionEntry.isLabeled (o : OptionEntry) : IsLabeled o.tree :=
  isLabeled_named _ (by simp [Role.all]) (by decide) (by simpa using o.value.isLabeled)

theorem Declaration.isLabeled (d : Declaration) : IsLabeled d.tree :=
  isLabeled_named _ (by simp [Role.all]) (by decide)
    (by simpa using fun o (_ : o ∈ d.options.entries) => o.isLabeled)

theorem Field.isLabeled (f : Field) : IsLabeled f.tree := by
  cases f with
  | rules keyword spelled opening block closing =>
      refine isLabeled_single (by simp [Role.all])
        (isLabeled_node (by simp) (by simp [Role.all]) ?_)
      simpa using fun r (_ : r ∈ block) => r.isLabeled
  | declarations name notRules opening declared closing =>
      refine isLabeled_named _ (by simp [Role.all]) (by decide) ?_
      simpa using fun d (_ : d ∈ declared) => d.declaration.isLabeled
  | setting name colon value =>
      exact isLabeled_named _ (by simp [Role.all]) (by decide) (by simpa using value.isLabeled)

theorem Derivation.isLabeled (d : Derivation) : IsLabeled d.tree :=
  isLabeled_node (by simp) (by simp [Role.all])
    (by simpa using fun f (_ : f ∈ d) => f.isLabeled)

end Surface

/-! ## Nodes and tokens -/

namespace Tree

mutual

/-- There is one heading for each node and each token. -/
theorem headings_length (depth : Nat) (role : String) (t : Tree) :
    (headings depth role t).length = t.size + t.leaves.length := by
  cases t with
  | leaf | plain => rfl
  | node kind children =>
      rw [headings, size, leaves, List.length_cons, roleHeadings_length]
      omega

theorem roleHeadings_length (depth : Nat) (children : List (String × List Tree)) :
    (roleHeadings depth children).length = rolesSize children + (roleLeaves children).length := by
  cases children with
  | nil => rfl
  | cons entry rest =>
      rw [roleHeadings, rolesSize, roleLeaves, List.length_append, List.length_append,
        kidHeadings_length, roleHeadings_length]
      omega

theorem kidHeadings_length (depth : Nat) (role : String) (kids : List Tree) :
    (kidHeadings depth role kids).length = kidsSize kids + (kidLeaves kids).length := by
  cases kids with
  | nil => rfl
  | cons t rest =>
      rw [kidHeadings, kidsSize, kidLeaves, List.length_append, List.length_append,
        headings_length, kidHeadings_length]
      omega

end

/-- The lines of a tree: one for each node and each token, with two blanks for each level of
depth and none behind these. All characters print, so no line is broken anywhere. -/
structure HasLines (t : Tree) (lines : List (List Char)) : Prop where
  length : lines.length = t.size + t.leaves.length
  eq : lines = (headings 0 "" t).map fun h => List.replicate (2 * h.depth) ' ' ++ h.body
  indented : ∀ h ∈ headings 0 "" t, ∀ c ∈ h.body.head?, c ≠ ' '
  printable : ∀ line ∈ lines, ∀ c ∈ line, Text.isPrintable c

theorem IsLabeled.hasLines {t : Tree} (h : IsLabeled t) {outline : String}
    (houtline : t.outline? standardIndent = some outline) :
    t.HasLines (outline.toList.splitOn '\n') := by
  have hlines := h.splitOn_outline houtline
  have hplain : ∀ heading ∈ headings 0 "" t, heading.IsPlain := h.isPlain_headings (.inl rfl)
  refine ⟨?_, ?_, ?_, ?_⟩
  · rw [hlines, List.length_map, headings_length]
  · rw [hlines]
    exact List.map_congr_left fun heading _ => heading.line_standard
  · intro heading hheading c hc
    obtain ⟨first, rest, hbody, hfirst⟩ :=
      (hplain heading hheading).exists_body
    rw [hbody, List.head?_cons, Option.mem_some_iff] at hc
    rintro rfl
    exact absurd (hc ▸ hfirst) (by decide)
  · rw [hlines]
    intro line hline
    obtain ⟨heading, hheading, rfl⟩ := List.mem_map.mp hline
    exact (hplain heading hheading).isPrintable_line

end Tree

namespace Document

theorem isLabeled_of_parse {text : String} {t : Tree} (h : parse text = .ok t) : t.IsLabeled := by
  obtain ⟨_, d, -, -, rfl⟩ := Surface.exists_derivation_of_parse h
  exact d.isLabeled

/-- Two texts that are parsed have the same outline if and only if their trees are the same but
for the places of tokens. Each has an outline, with one line for each node and each token, and
indented by its depth. -/
theorem outline_eq_iff {text text' : String} {t t' : Tree} (h : parse text = .ok t)
    (h' : parse text' = .ok t') :
    (t.outline? Tree.standardIndent = t'.outline? Tree.standardIndent ↔
      t.withoutPlaces = t'.withoutPlaces) ∧
    ∃ outline, t.outline? Tree.standardIndent = some outline ∧
      t.HasLines (outline.toList.splitOn '\n') := by
  have hlabeled := isLabeled_of_parse h
  have hlabeled' := isLabeled_of_parse h'
  refine ⟨⟨hlabeled.withoutPlaces_eq_of_outline hlabeled', fun heq =>
    hlabeled.isKeyed.outline_eq_of_withoutPlaces hlabeled'.isKeyed heq _⟩, ?_⟩
  obtain ⟨outline, houtline⟩ := hlabeled.isKeyed.exists_outline Tree.standardIndent
  exact ⟨outline, houtline, hlabeled.hasLines houtline⟩

/-- A lexeme with a newline, a quote and a control character stays on its line. The same field
behind a comment has the same outline, at other places. -/
theorem outline_eq_iff_comment :
    ∃ t t' outline, parse "x: \"a\n'\u0001\"" = .ok t ∧ parse "/**/x:\"a\n'\u0001\"" = .ok t' ∧
      t.leaves.map Token.start = [0, 3] ∧ t'.leaves.map Token.start = [4, 6] ∧
      t.withoutPlaces = t'.withoutPlaces ∧
      t.outline? Tree.standardIndent = some outline ∧
      t'.outline? Tree.standardIndent = some outline ∧
      t.HasLines (outline.toList.splitOn '\n') ∧
      outline = "\n".intercalate ["root", "  fields: root_field", "    name: IDENT 'x'",
        "    value: token_option_value",
        "      double_quote_string: STRING '\"a\\n\\'\\x01\"'"] := by
  let d : Surface.Derivation :=
    [.setting ⟨⟨.identifier, "x", 0, 1, 1, 1⟩, rfl⟩ ⟨⟨.colon, ":", 1, 2, 1, 2⟩, rfl⟩
      (.doubleQuoted ⟨⟨.doubleQuoted, "\"a\n'\u0001\"", 3, 9, 1, 4⟩, rfl⟩)]
  let d' : Surface.Derivation :=
    [.setting ⟨⟨.identifier, "x", 4, 5, 1, 5⟩, rfl⟩ ⟨⟨.colon, ":", 5, 6, 1, 6⟩, rfl⟩
      (.doubleQuoted ⟨⟨.doubleQuoted, "\"a\n'\u0001\"", 6, 12, 1, 7⟩, rfl⟩)]
  have hscan : Scan.ofChars "x: \"a\n'\u0001\"".toList = .ok ⟨d.tokens, ⟨9, 2, 4⟩⟩ := by cbv
  have hscan' : Scan.ofChars "/**/x:\"a\n'\u0001\"".toList = .ok ⟨d'.tokens, ⟨12, 2, 4⟩⟩ := by cbv
  have hparse := ((Surface.parse_ok_iff_derivable hscan).2.2 d rfl).1
  have hparse' := ((Surface.parse_ok_iff_derivable hscan').2.2 d' rfl).1
  obtain ⟨hiff, outline, houtline, hlines⟩ := outline_eq_iff hparse hparse'
  have hsame : d.tree.withoutPlaces = d'.tree.withoutPlaces := rfl
  refine ⟨d.tree, d'.tree, outline, hparse, hparse', rfl, rfl, hsame, houtline,
    (hiff.mpr hsame).symm.trans houtline, hlines, ?_⟩
  refine Option.some.inj (houtline.symm.trans ?_)
  decide +kernel

end Document

end Rulebook
