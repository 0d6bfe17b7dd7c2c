import Rulebook.Proofs.Surface.Lookahead
import Rulebook.Proofs.Surface.Soundness

/-! # What is derived is parsed

Each step over tokens reads every derivation of its construct, and gives its
tree, provided that what follows does not prolong the construct.
-/

namespace Rulebook.Document

open Surface

variable {tokens rest : Tokens}

theorem label_of_beginsLabel_eq_false (h : beginsLabel tokens = false) :
    (label tokens).value = [] ∧ (label tokens).rest = tokens := by
  unfold label
  split
  next t e more =>
    rw [if_neg]
    · exact ⟨rfl, rfl⟩
    · simpa [beginsLabel] using h
  next => exact ⟨rfl, rfl⟩

theorem label_complete (l : Option Label) (h : beginsLabel tokens = false) :
    (label (labelTokens l ++ tokens)).value = labelTrees l ∧
      (label (labelTokens l ++ tokens)).rest = tokens := by
  cases l with
  | none => exact label_of_beginsLabel_eq_false h
  | some l => simp [labelTokens, label, l.name.kind_eq, l.equals.kind_eq, labelTrees]

theorem suffixRole?_eq_none {kind : TokenKind} (h : continuesItem kind = false) :
    suffixRole? kind = none := by
  cases kind <;> first | rfl | cases h

theorem suffix_complete (s : Option Suffix) (h : continuesItem (nextKind rest) = false) :
    (suffix (suffixTokens s ++ rest)).value = suffixRoles s ∧
      (suffix (suffixTokens s ++ rest)).rest = rest := by
  cases s with
  | none =>
      cases rest with
      | nil => exact ⟨rfl, rfl⟩
      | cons t more =>
          have hrole := suffixRole?_eq_none h
          rw [nextKind_cons] at hrole
          simp [suffixTokens, suffix, hrole, suffixRoles]
  | some s =>
      cases s with
      | optional mark => simp [suffixTokens, Suffix.token, suffix, mark.kind_eq, suffixRole?, suffixRoles]
      | many mark => simp [suffixTokens, Suffix.token, suffix, mark.kind_eq, suffixRole?, suffixRoles]
      | many1 mark => simp [suffixTokens, Suffix.token, suffix, mark.kind_eq, suffixRole?, suffixRoles]

theorem scalar_complete_of_role {word : Token TokenKind} {role : String}
    (h : scalarRole? word.kind = some role) :
    Reads (scalar (word :: rest)) (node .scalar [(role, [leaf word])]) rest :=
  reads_scalar.mpr (Or.inl ⟨word, role, rfl, h, rfl⟩)

-- Groups make this a recursion on derivations. What follows an item must not be
-- taken for its suffix or make its name a label; after a group all may follow.
mutual

theorem item_complete (d : Item) {rest : Tokens} (h : continuesItem (nextKind rest) = false) :
    Reads (item (d.tokens ++ rest)) d.tree rest := by
  match d with
  | .mk l d s =>
      have hafter := nextKind_suffixTokens_ne_equals s h
      have hlabel := label_complete l (not_beginsLabel d hafter)
      have hsuffix := suffix_complete s h
      have hscalar := scalar_complete d (suffixTokens s ++ rest)
      rw [Item.tokens, Item.tree, List.append_assoc, List.append_assoc]
      refine reads_item.mpr ⟨d.tree, suffixTokens s ++ rest, ?_, hsuffix.2.symm, ?_⟩
      · rwa [hlabel.2]
      · rw [hlabel.1, hsuffix.1]

theorem scalar_complete (d : Scalar) (rest : Tokens) :
    Reads (scalar (d.tokens ++ rest)) d.tree rest := by
  match d with
  | .singleQuoted literal => exact scalar_complete_of_role (by rw [literal.kind_eq]; rfl)
  | .doubleQuoted literal => exact scalar_complete_of_role (by rw [literal.kind_eq]; rfl)
  | .name name => exact scalar_complete_of_role (by rw [name.kind_eq]; rfl)
  | .group opening first more closing =>
      have hclosing : nextKind (closing.token :: rest) = .closeParen := closing.kind_eq
      have hcontinues : continuesItem (nextKind (elementTokens more ++ closing.token :: rest)) = false :=
        nextKind_elementTokens more (by rw [hclosing]; rfl)
      have hall := element_complete first hcontinues (elements_complete more hclosing)
      refine reads_scalar.mpr (Or.inr
        ⟨opening.token, closing.token, _, _, ?_, opening.kind_eq, hall, closing.kind_eq, ?_, rfl⟩)
      · simp [Scalar.tokens]
      · exact List.cons_ne_nil _ _

theorem element_complete (d : Element) {after rest : Tokens} {ts : List Tree}
    (hafter : continuesItem (nextKind after) = false) (h : Reads (elements after) ts rest) :
    Reads (elements (d.tokens ++ after)) (d.tree :: ts) rest := by
  match d with
  | .bar bar => exact reads_elements.mpr (Or.inl ⟨bar.token, ts, after, rfl, bar.kind_eq, h, rfl⟩)
  | .item d =>
      refine reads_elements.mpr (Or.inr (Or.inl ⟨?_, d.tree, after, ts, ?_, h, rfl⟩))
      · rw [Element.tokens, nextKind_append d.tokens_ne_nil]
        exact d.beginsItem
      · exact item_complete d hafter

theorem elements_complete (ds : List Element) {rest : Tokens} (h : nextKind rest = .closeParen) :
    Reads (elements (elementTokens ds ++ rest)) (elementTrees ds) rest := by
  match ds with
  | [] =>
      refine reads_elements.mpr (Or.inr (Or.inr ⟨?_, ?_, rfl, rfl⟩))
      · rw [elementTokens, List.nil_append, h]
        decide
      · rw [elementTokens, List.nil_append, h]
        decide
  | d :: more =>
      have hafter : continuesItem (nextKind (elementTokens more ++ rest)) = false :=
        nextKind_elementTokens more (by rw [h]; rfl)
      rw [elementTokens, elementTrees, List.append_assoc]
      exact element_complete d hafter (elements_complete more h)

end

/-- Neither a bar nor a semicolon prolongs a sequence. -/
def EndsSequence (kind : TokenKind) : Prop := kind = .bar ∨ kind = .semicolon

theorem EndsSequence.not_continues {kind : TokenKind} (h : EndsSequence kind) :
    continuesItem kind = false := by
  rcases h with rfl | rfl <;> rfl

theorem EndsSequence.not_begins {kind : TokenKind} (h : EndsSequence kind) :
    ¬ beginsItem kind := by
  rcases h with rfl | rfl <;> decide

theorem expressions_complete (items : Sequence) (h : EndsSequence (nextKind rest)) :
    Reads (expressions (sequenceTokens items ++ rest)) (expressionTrees items) rest := by
  induction items with
  | nil => exact reads_expressions.mpr (Or.inr ⟨h.not_begins, rfl, rfl⟩)
  | cons d more ih =>
      have hafter := nextKind_sequenceTokens more h.not_continues
      rw [sequenceTokens, List.flatMap_cons, List.append_assoc]
      refine reads_expressions.mpr (Or.inl ⟨?_, d.tree, _, _, item_complete d hafter, ih, rfl⟩)
      rw [nextKind_append d.tokens_ne_nil]
      exact d.beginsItem

theorem sequence_complete (items : Sequence) (h : EndsSequence (nextKind rest)) :
    Reads (sequence (sequenceTokens items ++ rest)) (sequenceTree items) rest :=
  reads_sequence.mpr ⟨_, expressions_complete items h, rfl⟩

theorem endsSequence_alternatives (ds : List Alternative) (h : nextKind rest = .semicolon) :
    EndsSequence (nextKind (ds.flatMap Alternative.tokens ++ rest)) := by
  rw [nextKind_alternatives]
  split
  · exact Or.inr h
  · exact Or.inl rfl

theorem branches_complete (ds : List Alternative) (h : nextKind rest = .semicolon) :
    Reads (branches (ds.flatMap Alternative.tokens ++ rest))
      (ds.map fun d => branchTree d.sequence) rest := by
  induction ds with
  | nil => exact reads_branches.mpr (Or.inr ⟨by rw [List.flatMap_nil, List.nil_append, h]; decide, rfl, rfl⟩)
  | cons d more ih =>
      have hfirst := sequence_complete d.sequence (endsSequence_alternatives more h)
      refine reads_branches.mpr (Or.inl ⟨d.bar.token, _, _, _, _, ?_, d.bar.kind_eq, hfirst, ih, rfl⟩)
      simp [Alternative.tokens]

theorem rule_complete (d : Rule) : Reads (rule (d.tokens ++ rest)) d.tree rest := by
  have hend : nextKind (d.semicolon.token :: rest) = .semicolon := d.semicolon.kind_eq
  have hlead := sequence_complete d.lead (endsSequence_alternatives d.alternatives hend)
  refine reads_rule.mpr ⟨d.name.token, d.colon.token, d.semicolon.token, _, _, _, _, ?_,
    d.name.kind_eq, d.colon.kind_eq, hlead, branches_complete d.alternatives hend,
    d.semicolon.kind_eq, ?_⟩
  · simp [Rule.tokens]
  · rw [Rule.tree, ← leading_append_branches d _ hend]

theorem ruleList_complete (ds : List Rule) (h : nextKind rest = .closeBrace) :
    Reads (ruleList (ds.flatMap Rule.tokens ++ rest)) (ds.map Rule.tree) rest := by
  induction ds with
  | nil => exact reads_ruleList.mpr (Or.inl ⟨h, rfl, rfl⟩)
  | cons d more ih =>
      rw [List.flatMap_cons, List.append_assoc]
      refine reads_ruleList.mpr (Or.inr ⟨?_, d.tree, _, _, rule_complete d, ih, rfl⟩)
      rw [Rule.nextKind_tokens]
      decide

/-! ## Options and declarations -/

theorem valueRole?_token (d : OptionValue) : valueRole? d.token = some d.role := by
  cases d with
  | number t => simp [OptionValue.token, OptionValue.role, valueRole?, t.kind_eq]
  | regex t => simp [OptionValue.token, OptionValue.role, valueRole?, t.kind_eq]
  | doubleQuoted t => simp [OptionValue.token, OptionValue.role, valueRole?, t.kind_eq]
  | singleQuoted t => simp [OptionValue.token, OptionValue.role, valueRole?, t.kind_eq]
  | true word spelled => simp [OptionValue.token, OptionValue.role, valueRole?, word.kind_eq, spelled]
  | false word spelled => simp [OptionValue.token, OptionValue.role, valueRole?, word.kind_eq, spelled]
  | name t notTrue notFalse =>
      simp [OptionValue.token, OptionValue.role, valueRole?, t.kind_eq, notTrue, notFalse]

theorem optionValue_complete (d : OptionValue) :
    Reads (optionValue (d.token :: rest)) d.tree rest :=
  reads_optionValue.mpr ⟨d.token, d.role, rfl, valueRole?_token d, rfl⟩

theorem option_complete (d : OptionEntry) : Reads (option (d.tokens ++ rest)) d.tree rest :=
  reads_option.mpr ⟨d.name.token, d.colon.token, d.value.tree, d.value.token :: rest, rfl,
    d.name.kind_eq, d.colon.kind_eq, optionValue_complete d.value, rfl⟩

theorem options_some_complete (first : OptionEntry) (more : List FurtherOption)
    (trailing : Option (Terminal .comma)) (h : nextKind rest = .closeBrace) :
    Reads (options ((OptionList.some first more trailing).tokens ++ rest))
      ((OptionList.some first more trailing).entries.map OptionEntry.tree) rest := by
  have hbegins : ∀ (o : OptionEntry) (after : Tokens),
      nextKind (o.tokens ++ after) ≠ .closeBrace := by
    intro o after
    change o.name.token.kind ≠ _
    rw [o.name.kind_eq]
    decide
  -- Each further option takes the place of the first one.
  induction more generalizing first with
  | nil =>
      cases trailing with
      | none =>
          have htokens : (OptionList.some first [] none).tokens ++ rest = first.tokens ++ rest := by
            simp [OptionList.tokens, optionalToken]
          rw [htokens]
          refine reads_options.mpr (Or.inr ⟨hbegins first rest, first.tree, rest,
            option_complete first, Or.inl ⟨?_, rfl, rfl⟩⟩)
          rw [h]
          decide
      | some comma =>
          have htokens : (OptionList.some first [] (some comma)).tokens ++ rest =
              first.tokens ++ comma.token :: rest := by
            simp [OptionList.tokens, optionalToken]
          have hnone : Reads (options rest) [] rest := reads_options.mpr (Or.inl ⟨h, rfl, rfl⟩)
          rw [htokens]
          exact reads_options.mpr (Or.inr ⟨hbegins first _, first.tree, comma.token :: rest,
            option_complete first, Or.inr ⟨comma.token, [], rest, rfl, comma.kind_eq, hnone, rfl⟩⟩)
  | cons o more ih =>
      have htokens : (OptionList.some first (o :: more) trailing).tokens ++ rest =
          first.tokens ++ o.comma.token :: ((OptionList.some o.entry more trailing).tokens ++ rest) := by
        simp [OptionList.tokens, FurtherOption.tokens]
      rw [htokens]
      exact reads_options.mpr (Or.inr ⟨hbegins first _, first.tree, _, option_complete first,
        Or.inr ⟨o.comma.token, _, _, rfl, o.comma.kind_eq, ih o.entry, rfl⟩⟩)

theorem options_complete (d : OptionList) (h : nextKind rest = .closeBrace) :
    Reads (options (d.tokens ++ rest)) (d.entries.map OptionEntry.tree) rest := by
  cases d with
  | none => exact reads_options.mpr (Or.inl ⟨h, rfl, rfl⟩)
  | some first more trailing => exact options_some_complete first more trailing h

theorem token_complete (d : Declaration) : Reads (token (d.tokens ++ rest)) d.tree rest := by
  have hclosing : nextKind (d.closing.token :: rest) = .closeBrace := d.closing.kind_eq
  refine reads_token.mpr ⟨d.name.token, d.colon.token, d.opening.token, d.closing.token, _, _, ?_,
    d.name.kind_eq, d.colon.kind_eq, d.opening.kind_eq, options_complete d.options hclosing,
    d.closing.kind_eq, rfl⟩
  simp [Declaration.tokens]

theorem skip_comma_complete (comma : Option (Terminal .comma)) (h : nextKind rest ≠ .comma) :
    skip .comma (optionalToken comma ++ rest) = rest := by
  cases comma with
  | none => exact skip_of_ne h
  | some comma => exact skip_cons comma.kind_eq

theorem tokenList_complete (ds : List Declared) (h : nextKind rest = .closeBrace) :
    Reads (tokenList (ds.flatMap Declared.tokens ++ rest))
      (ds.map fun d => d.declaration.tree) rest := by
  induction ds with
  | nil => exact reads_tokenList.mpr (Or.inl ⟨h, rfl, rfl⟩)
  | cons d more ih =>
      have hafter : nextKind (more.flatMap Declared.tokens ++ rest) ≠ .comma := by
        cases more with
        | nil =>
            rw [List.flatMap_nil, List.nil_append, h]
            decide
        | cons d' more =>
            rw [List.flatMap_cons, Declared.tokens, List.append_assoc, List.append_assoc,
              Declaration.nextKind_tokens]
            decide
      rw [List.flatMap_cons, Declared.tokens, List.append_assoc, List.append_assoc]
      refine reads_tokenList.mpr (Or.inr ⟨?_, d.declaration.tree, _, _,
        token_complete d.declaration, ?_, rfl⟩)
      · rw [Declaration.nextKind_tokens]
        decide
      · rwa [skip_comma_complete d.comma hafter]

/-! ## Fields -/

theorem field_complete (d : Field) : Reads (field (d.tokens ++ rest)) d.tree rest := by
  cases d with
  | rules keyword spelled opening block closing =>
      have hclosing : nextKind (closing.token :: rest) = .closeBrace := closing.kind_eq
      have hblock : Reads (rules (opening.token :: (block.flatMap Rule.tokens ++ closing.token :: rest)))
          (node .rules [(Role.rules, block.map Rule.tree)]) rest :=
        reads_rules.mpr ⟨opening.token, closing.token, _, _, rfl, opening.kind_eq,
          ruleList_complete block hclosing, closing.kind_eq, rfl⟩
      have htokens : (Field.rules keyword spelled opening block closing).tokens ++ rest =
          keyword.token :: opening.token :: (block.flatMap Rule.tokens ++ closing.token :: rest) := by
        simp [Field.tokens]
      exact reads_field.mpr ⟨keyword.token, _, htokens, keyword.kind_eq,
        Or.inl ⟨spelled, opening.kind_eq, _, hblock, rfl⟩⟩
  | declarations name notRules opening declared closing =>
      have hclosing : nextKind (closing.token :: rest) = .closeBrace := closing.kind_eq
      refine reads_field.mpr ⟨name.token, _, ?_, name.kind_eq,
        Or.inr ⟨fun h => notRules h.1, reads_fieldBody.mpr (Or.inl ⟨opening.token, closing.token, _, _,
          rfl, opening.kind_eq, tokenList_complete declared hclosing, closing.kind_eq, rfl⟩)⟩⟩
      simp [Field.tokens]
  | setting name colon value =>
      refine reads_field.mpr ⟨name.token, _, rfl, name.kind_eq, Or.inr ⟨?_, reads_fieldBody.mpr
        (Or.inr ⟨colon.token, value.tree, _, rfl, colon.kind_eq, optionValue_complete value, rfl⟩)⟩⟩
      rintro ⟨-, hopen⟩
      cases colon.kind_eq.symm.trans hopen

theorem fields_complete (d : Derivation) : fields d.tokens = .ok (d.map Field.tree) := by
  induction d with
  | nil => exact fields_eq_ok.mpr (Or.inl ⟨rfl, rfl⟩)
  | cons first more ih =>
      exact fields_eq_ok.mpr (Or.inr ⟨first.tree, _, _, field_complete first, ih, rfl⟩)

/-- The tokens of a derivation are parsed, into its tree. -/
theorem ofTokens_complete (d : Derivation) : ofTokens d.tokens = .ok d.tree := by
  change fields d.tokens >>= (fun ts => .ok (node .document [(Role.fields, ts)])) = _
  rw [fields_complete]
  rfl

end Rulebook.Document
