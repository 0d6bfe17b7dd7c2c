import Rulebook.Proofs.Document.Print
import Rulebook.Proofs.Surface.Moved

/-! # What a tree tells of its tokens

The essence of a derivation is its tokens without the commas and without the bars that
stand in front of a rule for the eye only. The essence determines the tree, and the tree
is printed as the essence, so the two tell the same.
-/

namespace Rulebook.Surface

open Document (Tokens nextKind node leaf)

/-- The same rule without a leading bar, if there is one in front of the first of several
alternatives that is not empty. -/
def Rule.plain (r : Rule) : Rule :=
  match r.lead, r.alternatives with
  | [], first :: more =>
      if first.sequence.isEmpty || more.isEmpty then r
      else { r with lead := first.sequence, alternatives := more }
  | _, _ => r

/-- The tokens of a rule that is plain. -/
def Rule.essence (r : Rule) : Tokens := r.plain.tokens

/-- The tokens of a declaration without commas. -/
def Declaration.essence (d : Declaration) : Tokens :=
  d.name.token :: d.colon.token :: d.opening.token ::
    (d.options.entries.flatMap OptionEntry.tokens ++ [d.closing.token])

/-- The tokens of a declaration without commas, also without the one after it. -/
def Declared.essence (d : Declared) : Tokens := d.declaration.essence

/-- The tokens of a field without commas, with plain rules. -/
def Field.essence : Field → Tokens
  | .rules keyword _ opening block closing =>
      keyword.token :: opening.token :: (block.flatMap Rule.essence ++ [closing.token])
  | .declarations name _ opening declared closing =>
      name.token :: opening.token :: (declared.flatMap Declared.essence ++ [closing.token])
  | .setting name colon value => [name.token, colon.token, value.token]

/-- The tokens of a derivation without commas, with plain rules. -/
def Derivation.essence (d : Derivation) : Tokens := d.flatMap Field.essence

/-! ## The essence determines the tree -/

/-- A leading bar does not show in the tree. -/
theorem Rule.plain_tree (r : Rule) : r.plain.tree = r.tree := by
  obtain ⟨name, colon, lead, alternatives, semicolon⟩ := r
  unfold Rule.plain
  split
  · next first more hlead halternatives =>
      obtain rfl : lead = [] := hlead
      obtain rfl : alternatives = first :: more := halternatives
      split
      · rfl
      · next h =>
          rw [Bool.or_eq_true, not_or] at h
          simp [Rule.tree, Rule.bodyTrees, Rule.branches, h]
  · rfl

theorem Rule.essence_determines : Determines Rule.essence Rule.tree fun _ => True := by
  intro d d' r r' hr hr' h
  obtain ⟨hplain, rfl⟩ := Rule.unique hr hr' h
  exact ⟨by rw [← d.plain_tree, hplain, d'.plain_tree], rfl⟩

theorem rules_determine : Determines (List.flatMap Rule.essence) (List.map Rule.tree)
    fun r => nextKind r = .closeBrace := by
  refine Rule.essence_determines.flatMap (fun r => nextKind r = .identifier) ?_
    (fun _ _ => trivial) ?_
  · exact fun d r => d.plain.nextKind_tokens r
  · intro r hr
    simp [hr]

theorem optionEntries_unique :
    Unique (List.flatMap OptionEntry.tokens) fun r => nextKind r = .closeBrace := by
  refine Unique.flatMap (fun r => nextKind r = .identifier) OptionEntry.unique ?_
    (fun _ _ => trivial) ?_
  · exact fun d r => d.nextKind_tokens r
  · intro r hr
    simp [hr]

theorem Declaration.essence_determines :
    Determines Declaration.essence Declaration.tree fun _ => True := by
  intro d d' r r' _ _ h
  simp only [Declaration.essence, List.cons_append, List.append_assoc, List.nil_append] at h
  obtain ⟨hname, h⟩ := Terminal.unique h
  obtain ⟨-, h⟩ := Terminal.unique h
  obtain ⟨-, h⟩ := Terminal.unique h
  obtain ⟨hentries, h⟩ :=
    optionEntries_unique (d.closing.nextKind_cons r) (d'.closing.nextKind_cons r') h
  obtain ⟨-, rfl⟩ := Terminal.unique h
  exact ⟨by rw [Declaration.tree, Declaration.tree, hname, hentries], rfl⟩

theorem declared_determine : Determines (List.flatMap Declared.essence)
    (List.map fun d => d.declaration.tree) fun r => nextKind r = .closeBrace := by
  have hdeclared : Determines Declared.essence (fun d => d.declaration.tree) fun _ => True :=
    fun _ _ _ _ hr hr' h => Declaration.essence_determines hr hr' h
  refine hdeclared.flatMap (fun r => nextKind r = .identifier) ?_ (fun _ _ => trivial) ?_
  · exact fun d r => d.declaration.name.nextKind_cons _
  · intro r hr
    simp [hr]

/-- The first two tokens of a field tell which one it is. -/
theorem Field.essence_determines : Determines Field.essence Field.tree fun _ => True := by
  intro d d' r r' _ _ h
  cases d with
  | rules keyword spelled opening block closing =>
      cases d' with
      | rules keyword' spelled' opening' block' closing' =>
          simp only [Field.essence, List.cons_append, List.append_assoc, List.nil_append] at h
          obtain ⟨-, hafter⟩ := Terminal.unique h
          obtain ⟨-, hinside⟩ := Terminal.unique hafter
          obtain ⟨hblock, hclosing⟩ :=
            rules_determine (closing.nextKind_cons r) (closing'.nextKind_cons r') hinside
          obtain ⟨-, rfl⟩ := Terminal.unique hclosing
          exact ⟨by rw [Field.tree, Field.tree, hblock], rfl⟩
      | declarations name' notRules' opening' declared' closing' =>
          obtain ⟨rfl, -⟩ := Terminal.unique h
          exact absurd spelled notRules'
      | setting name' colon' value' =>
          obtain ⟨-, h⟩ := Terminal.unique h
          exact absurd (Terminal.kind_unique (List.cons.inj h).1) (by decide)
  | declarations name notRules opening declared closing =>
      cases d' with
      | rules keyword' spelled' opening' block' closing' =>
          obtain ⟨rfl, -⟩ := Terminal.unique h
          exact absurd spelled' notRules
      | declarations name' notRules' opening' declared' closing' =>
          simp only [Field.essence, List.cons_append, List.append_assoc, List.nil_append] at h
          obtain ⟨rfl, hafter⟩ := Terminal.unique h
          obtain ⟨-, hinside⟩ := Terminal.unique hafter
          obtain ⟨hdeclared, hclosing⟩ :=
            declared_determine (closing.nextKind_cons r) (closing'.nextKind_cons r') hinside
          obtain ⟨-, rfl⟩ := Terminal.unique hclosing
          exact ⟨by rw [Field.tree, Field.tree, hdeclared], rfl⟩
      | setting name' colon' value' =>
          obtain ⟨-, h⟩ := Terminal.unique h
          exact absurd (Terminal.kind_unique (List.cons.inj h).1) (by decide)
  | setting name colon value =>
      cases d' with
      | setting name' colon' value' =>
          change Field.tokens (.setting name colon value) ++ r =
            Field.tokens (.setting name' colon' value') ++ r' at h
          obtain ⟨hfield, rfl⟩ := Field.unique trivial trivial h
          exact ⟨by rw [hfield], rfl⟩
      | _ =>
          obtain ⟨-, h⟩ := Terminal.unique h
          exact absurd (Terminal.kind_unique (List.cons.inj h).1) (by decide)

/-- Derivations with the same essence have the same tree. -/
theorem Derivation.tree_eq_of_essence {d d' : Derivation} (h : d.essence = d'.essence) :
    d.tree = d'.tree := by
  have hfields : Determines (List.flatMap Field.essence) (List.map Field.tree) fun r => r = [] := by
    refine Field.essence_determines.flatMap (fun r => nextKind r = .identifier) ?_
      (fun _ _ => trivial) ?_
    · intro d r
      cases d with
      | rules keyword _ _ _ _ => exact keyword.kind_eq
      | declarations name _ _ _ _ => exact name.kind_eq
      | setting name _ _ => exact name.kind_eq
    · rintro r rfl
      exact ⟨trivial, by decide⟩
  rw [Derivation.tree, Derivation.tree, (hfields rfl rfl (congrArg (· ++ []) h)).1]

/-! ## Moved derivations -/

section Moved

variable (f : Span → Span)

theorem Rule.plain_moved (r : Rule) : (r.moved f).plain = r.plain.moved f := by
  obtain ⟨name, colon, lead, alternatives, semicolon⟩ := r
  cases lead with
  | cons item rest => rfl
  | nil =>
      cases alternatives with
      | nil => rfl
      | cons first more =>
          simp only [Rule.plain, Rule.moved, List.map_nil, List.map_cons, Alternative.moved,
            List.isEmpty_map]
          split <;> rfl

theorem Rule.essence_moved (r : Rule) : (r.moved f).essence = r.essence.map (Token.moved f) := by
  rw [Rule.essence, r.plain_moved, r.plain.tokens_moved, Rule.essence]

theorem Declaration.essence_moved (d : Declaration) :
    (d.moved f).essence = d.essence.map (Token.moved f) := by
  simp [Declaration.essence, Declaration.moved, OptionList.entries_moved,
    flatMap_moved f (OptionEntry.tokens_moved f)]

theorem Declared.essence_moved (d : Declared) :
    (d.moved f).essence = d.essence.map (Token.moved f) :=
  d.declaration.essence_moved f

theorem Field.essence_moved (d : Field) :
    (d.moved f).essence = d.essence.map (Token.moved f) := by
  cases d with
  | rules keyword spelled opening block closing =>
      simp [Field.moved, Field.essence, flatMap_moved f (Rule.essence_moved f)]
  | declarations name notRules opening declared closing =>
      simp [Field.moved, Field.essence, flatMap_moved f (Declared.essence_moved f)]
  | setting name colon value => simp [Field.moved, Field.essence, OptionValue.token_moved]

theorem Derivation.essence_moved (d : Derivation) :
    (d.moved f).essence = d.essence.map (Token.moved f) :=
  flatMap_moved f (Field.essence_moved f) d

end Moved

/-- Derivations whose essences have the same kinds and lexemes have the same tree, but for
the places in it. -/
theorem Derivation.withoutPlaces_tree_eq {d d' : Derivation}
    (h : d.essence.map (fun t => (t.kind, t.lexeme)) =
      d'.essence.map fun t => (t.kind, t.lexeme)) :
    d.tree.withoutPlaces = d'.tree.withoutPlaces := by
  have hessence : (d.moved fun _ => .nowhere).essence = (d'.moved fun _ => .nowhere).essence := by
    rw [d.essence_moved, d'.essence_moved, Token.map_moved_const, Token.map_moved_const, h]
  rw [Tree.withoutPlaces, ← d.tree_moved, tree_eq_of_essence hessence, d'.tree_moved]

/-! ## The tree is printed as the essence -/

theorem Terminal.glyph_eq {kind : TokenKind} (t : Terminal kind)
    (h : kind ∈ Piece.punctuations) : t.token.toLeaf.glyph = kind.glyph := by
  obtain ⟨t, rfl⟩ := t
  have hname : t.toLeaf.kind ∈ Piece.punctuations.map TokenKind.name := List.mem_map_of_mem h
  rw [Token.glyph, if_pos hname]
  rfl

theorem labelPrint_labelTrees (label : Option Label) :
    Tree.labelPrint ((labelTrees label).map Tree.print).flatten =
      Document.print (labelTokens label) := by
  cases label with
  | none => rfl
  | some label =>
      simp [labelTrees, labelTokens, Tree.labelPrint, label.equals.glyph_eq (by decide)]

theorem keyed_labelTrees (label : Option Label) : ∀ s ∈ labelTrees label, s.IsKeyed := by
  cases label with
  | none => simp [labelTrees]
  | some label => simp [labelTrees]

theorem keyed_suffixRoles (suffix : Option Suffix) :
    ∀ entry ∈ suffixRoles suffix, ∀ s ∈ entry.2, s.IsKeyed := by
  cases suffix with
  | none => simp [suffixRoles]
  | some s => cases s <;> simp [suffixRoles]

/-- An item is printed from the print of its scalar. -/
theorem prints_item {label : Option Label} {suffix : Option Suffix} {t : Tree} {tokens : Tokens}
    (h : Prints t tokens) : Prints (node .item (Lowering.itemRoles label t suffix))
      (labelTokens label ++ tokens ++ suffixTokens suffix) := by
  refine .node (Lowering.itemRoles_nodup label t suffix) ?_ ?_
  · rw [Lowering.itemRoles, List.forall_mem_append]
    refine ⟨?_, keyed_suffixRoles suffix⟩
    simpa [h.keyed] using keyed_labelTrees label
  · have hlabel := labelPrint_labelTrees label
    cases suffix with
    | none =>
        simp +decide [Tree.nodePrint, Lowering.itemRoles, suffixRoles, Lowering.under_cons,
          h.print_eq, hlabel, suffixTokens]
    | some s =>
        cases s <;>
          simp +decide [Tree.nodePrint, Lowering.itemRoles, suffixRoles, Lowering.under_cons,
            h.print_eq, hlabel, suffixTokens, Suffix.token]

/-- An expression is printed as what it wraps. -/
theorem prints_expression {t : Tree} {tokens : Tokens} (h : Prints t tokens) :
    Prints (node .expression [(Role.value, [t])]) tokens :=
  .node (by simp) (by simpa using h.keyed)
    (by simp [Tree.nodePrint, Lowering.under_cons, h.print_eq])

theorem prints_group (opening : Terminal .openParen) (closing : Terminal .closeParen) {t : Tree}
    {tokens : Tokens} (h : Prints t tokens) :
    Prints (node .group [(Role.value, [t])]) (opening.token :: tokens ++ [closing.token]) :=
  .node (by simp) (by simpa using h.keyed)
    (by simp [Tree.nodePrint, Lowering.under_cons, h.print_eq, opening.glyph_eq (by decide),
      closing.glyph_eq (by decide)])

mutual

theorem Item.prints (d : Item) : Prints d.tree d.tokens := by
  cases d with
  | mk label scalar suffix =>
      rw [Lowering.item_tree, Item.tokens]
      exact prints_item scalar.prints

theorem Scalar.prints (d : Scalar) : Prints d.tree d.tokens := by
  cases d with
  | singleQuoted literal =>
      rw [Scalar.tree, Scalar.tokens]
      exact .node (by simp) (by simp) (by simp +decide [Tree.nodePrint, Lowering.under_cons])
  | doubleQuoted literal =>
      rw [Scalar.tree, Scalar.tokens]
      exact .node (by simp) (by simp) (by simp +decide [Tree.nodePrint, Lowering.under_cons])
  | name name =>
      rw [Scalar.tree, Scalar.tokens]
      exact .node (by simp) (by simp) (by simp +decide [Tree.nodePrint, Lowering.under_cons])
  | group opening first more closing =>
      obtain ⟨hkeyed, hprint⟩ := elements_print more
      have hchoice : Prints (node .choice [(Role.elements, first.tree :: elementTrees more)])
          (first.tokens ++ elementTokens more) :=
        .node (by simp) (by simpa [first.prints.keyed] using hkeyed)
          (by simp [Tree.nodePrint, Lowering.under_cons, first.prints.print_eq, hprint])
      have hgroup := prints_group opening closing (prints_expression hchoice)
      rw [Scalar.tree, Scalar.tokens]
      exact .node (by simp) (by simpa using hgroup.keyed)
        (by simp +decide [Tree.nodePrint, Lowering.under_cons, hgroup.print_eq])

theorem Element.prints (d : Element) : Prints d.tree d.tokens := by
  cases d with
  | bar bar =>
      rw [Element.tree, Element.tokens]
      exact ⟨.leaf _, rfl⟩
  | item item =>
      rw [Element.tree, Element.tokens]
      exact item.prints

theorem elements_print (ds : List Element) : (∀ s ∈ elementTrees ds, s.IsKeyed) ∧
    ((elementTrees ds).map Tree.print).flatten = Document.print (elementTokens ds) := by
  cases ds with
  | nil => simp [elementTrees, elementTokens]
  | cons d rest =>
      obtain ⟨hkeyed, hprint⟩ := elements_print rest
      simpa [elementTrees, elementTokens, d.prints.keyed, d.prints.print_eq, hprint] using hkeyed

end

theorem prints_sequence (items : Sequence) :
    Prints (sequenceTree items) (sequenceTokens items) := by
  have hitems : ∀ item ∈ items, Prints (node .expression [(Role.value, [item.tree])]) item.tokens :=
    fun item _ => prints_expression item.prints
  refine .node (by simp) ?_ ?_
  · simpa [expressionTrees] using Prints.keyed_map hitems
  · simpa [Tree.nodePrint, Lowering.under_cons, expressionTrees, sequenceTokens] using
      Prints.flatten_map hitems

theorem prints_branch (bar : Terminal .bar) (items : Sequence) :
    Prints (branchTree items) (bar.token :: sequenceTokens items) :=
  .node (by simp) (by simp [(prints_sequence items).keyed])
    (by simp [Tree.nodePrint, Lowering.under_cons, (prints_sequence items).print_eq,
      bar.glyph_eq (by decide)])

theorem Alternative.prints (a : Alternative) : Prints (branchTree a.sequence) a.tokens :=
  prints_branch a.bar a.sequence

theorem print_sequenceTokens_ne_nil {items : Sequence} (h : items ≠ []) :
    Document.print (sequenceTokens items) ≠ [] := by
  obtain ⟨item, rest, rfl⟩ := List.exists_cons_of_ne_nil h
  simp [Document.print, sequenceTokens, item.tokens_ne_nil]

theorem print_branches (alternatives : List Alternative) :
    (((alternatives.map Alternative.sequence).map branchTree).map Tree.print).flatten =
      Document.print (alternatives.flatMap Alternative.tokens) := by
  rw [List.map_map (g := branchTree)]
  exact Prints.flatten_map fun (a : Alternative) _ => a.prints

/-- The first of several branches is printed without its bar, if it has items. -/
theorem bodyPrint_branches (bar : Terminal .bar) {first : Sequence} {more : List Alternative}
    (h : first ≠ []) (hmore : more ≠ []) :
    Tree.bodyPrint (((first :: more.map Alternative.sequence).map branchTree).map Tree.print) =
      Document.print (sequenceTokens first ++ more.flatMap Alternative.tokens) := by
  obtain ⟨glyph, glyphs, hfirst⟩ := List.exists_cons_of_ne_nil (print_sequenceTokens_ne_nil h)
  obtain ⟨next, rest, rfl⟩ := List.exists_cons_of_ne_nil hmore
  rw [Document.print_append, ← print_branches, List.map_cons, List.map_cons,
    (prints_branch bar first).print_eq, Document.print_cons, hfirst]
  rfl

/-- An empty branch and an only one are printed with their bar. -/
theorem bodyPrint_flatten {first : Alternative} {more : List Alternative}
    (h : first.sequence = [] ∨ more = []) :
    Tree.bodyPrint ((((first :: more).map Alternative.sequence).map branchTree).map Tree.print) =
      Document.print ((first :: more).flatMap Alternative.tokens) := by
  rw [← print_branches, List.map_cons, List.map_cons, List.map_cons, first.prints.print_eq,
    Alternative.tokens]
  rcases h with h | rfl
  · rw [h]
    rfl
  · simp [Tree.bodyPrint]

/-- The body of a rule is printed as that of the plain rule. -/
theorem Rule.bodyPrint_bodyTrees (r : Rule) : Tree.bodyPrint (r.bodyTrees.map Tree.print) =
    Document.print
      (sequenceTokens r.plain.lead ++ r.plain.alternatives.flatMap Alternative.tokens) := by
  obtain ⟨name, colon, lead, alternatives, semicolon⟩ := r
  cases alternatives with
  | nil => cases lead <;> simp [bodyTrees, plain, Tree.bodyPrint, (prints_sequence _).print_eq]
  | cons first more =>
      cases lead with
      | cons item rest => exact bodyPrint_branches first.bar (by simp) (by simp)
      | nil =>
          by_cases h : first.sequence = [] ∨ more = []
          · have hflatten := bodyPrint_flatten h
            simpa [bodyTrees, branches, plain, h, sequenceTokens] using hflatten
          · have hbranches := bodyPrint_branches first.bar (not_or.mp h).1 (not_or.mp h).2
            simpa [bodyTrees, branches, plain, h] using hbranches

theorem Rule.keyed_bodyTrees (r : Rule) : ∀ s ∈ r.bodyTrees, s.IsKeyed := by
  unfold Rule.bodyTrees
  cases halternatives : r.alternatives with
  | nil => simp [(prints_sequence r.lead).keyed]
  | cons first more => simp [fun items => (prints_branch first.bar items).keyed]

theorem Rule.prints (r : Rule) : Prints r.tree r.essence := by
  have hplain : r.plain.name = r.name ∧ r.plain.colon = r.colon ∧
      r.plain.semicolon = r.semicolon := by
    unfold Rule.plain
    split
    · split <;> simp
    · simp
  rw [Rule.tree, Rule.essence, Rule.tokens, hplain.1, hplain.2.1, hplain.2.2]
  refine .node (by simp +decide) (by simpa using r.keyed_bodyTrees) ?_
  simp +decide [Tree.nodePrint, Lowering.under_cons, r.bodyPrint_bodyTrees,
    r.colon.glyph_eq (by decide), r.semicolon.glyph_eq (by decide)]

theorem OptionValue.prints (v : OptionValue) : Prints v.tree [v.token] := by
  refine .node (by simp) (by simp) ?_
  cases v <;>
    simp +decide [Tree.nodePrint, Lowering.valueRoles, Lowering.under_cons, OptionValue.role,
      OptionValue.token]

theorem OptionEntry.prints (o : OptionEntry) : Prints o.tree o.tokens := by
  refine .node (by simp +decide) (by simp [o.value.prints.keyed]) ?_
  simp +decide [Tree.nodePrint, Lowering.under_cons, o.value.prints.print_eq, OptionEntry.tokens,
    o.colon.glyph_eq (by decide)]

theorem Declaration.prints (d : Declaration) : Prints d.tree d.essence := by
  have hentries : ∀ o ∈ d.options.entries, Prints o.tree o.tokens := fun o _ => o.prints
  refine .node (by simp +decide) ?_ ?_
  · simpa using Prints.keyed_map hentries
  · have hprint := Prints.flatten_map hentries
    simp +decide [-List.map_map, Tree.nodePrint, Lowering.under_cons, hprint, Declaration.essence,
      d.colon.glyph_eq (by decide), d.opening.glyph_eq (by decide), d.closing.glyph_eq (by decide)]

theorem Field.prints (f : Field) : Prints f.tree f.essence := by
  cases f with
  | rules keyword spelled opening block closing =>
      have hrules : ∀ r ∈ block, Prints r.tree r.essence := fun r _ => r.prints
      have hprint := Prints.flatten_map hrules
      have hblock : Prints (node .rules [(Role.rules, block.map Rule.tree)])
          (opening.token :: (block.flatMap Rule.essence ++ [closing.token])) := by
        refine .node (by simp) ?_ ?_
        · simpa using Prints.keyed_map hrules
        · simp [-List.map_map, Tree.nodePrint, Lowering.under_cons, hprint,
            opening.glyph_eq (by decide), closing.glyph_eq (by decide)]
      have hkeyword : keyword.token.toLeaf.glyph = (TokenKind.identifier.name, "rules") := by
        simp +decide [Token.glyph, Token.toLeaf, Token.mapKind, keyword.kind_eq, spelled]
      refine .node (by simp) (by simp [hblock.keyed]) ?_
      simp [Tree.nodePrint, Lowering.under_cons, hblock.print_eq, Field.essence, hkeyword]
  | declarations name notRules opening declared closing =>
      have hdeclared : ∀ d ∈ declared, Prints d.declaration.tree d.essence :=
        fun d _ => d.declaration.prints
      have hprint := Prints.flatten_map hdeclared
      refine .node (by simp +decide) ?_ ?_
      · simpa using Prints.keyed_map hdeclared
      · simp +decide [-List.map_map, Tree.nodePrint, Lowering.under_cons, hprint, Field.essence,
          opening.glyph_eq (by decide), closing.glyph_eq (by decide)]
  | setting name colon value =>
      refine .node (by simp +decide) (by simp [value.prints.keyed]) ?_
      simp +decide [Tree.nodePrint, Lowering.under_cons, value.prints.print_eq, Field.essence,
        colon.glyph_eq (by decide)]

/-- The tree of a derivation is printed as its essence. -/
theorem Derivation.prints (d : Derivation) : Prints d.tree d.essence := by
  have hfields : ∀ f ∈ d, Prints f.tree f.essence := fun f _ => f.prints
  refine .node (by simp) ?_ ?_
  · simpa using Prints.keyed_map hfields
  · have hprint := Prints.flatten_map hfields
    simp [-List.map_map, Tree.nodePrint, Lowering.under_cons, hprint, Derivation.essence]

end Rulebook.Surface
