import Rulebook.Proofs.Surface.Steps
import Rulebook.Proofs.Surface.Syntax

/-! # What is parsed is derived

Whenever a step over tokens succeeds, the tokens it took are those of a
derivation of its construct, and the tree it gives is the tree of that
derivation.
-/

namespace Rulebook.Document

open Surface

variable {tokens rest : Tokens} {t : Tree} {ts : List Tree}

theorem label_sound (tokens : Tokens) :
    ∃ l : Option Label, tokens = labelTokens l ++ (label tokens).rest ∧
      (label tokens).value = labelTrees l := by
  unfold label
  split
  next name equals rest =>
    split
    next h => exact ⟨some ⟨⟨name, h.1⟩, ⟨equals, h.2⟩⟩, rfl, rfl⟩
    next => exact ⟨none, rfl, rfl⟩
  next => exact ⟨none, rfl, rfl⟩

theorem suffix_sound (tokens : Tokens) :
    ∃ s : Option Suffix, tokens = suffixTokens s ++ (suffix tokens).rest ∧
      (suffix tokens).value = suffixRoles s := by
  unfold suffix
  split
  next mark rest =>
    split
    next role hrole =>
      unfold suffixRole? at hrole
      split at hrole
      next hkind =>
        cases hrole
        exact ⟨some (.optional ⟨mark, hkind⟩), rfl, rfl⟩
      next hkind =>
        cases hrole
        exact ⟨some (.many ⟨mark, hkind⟩), rfl, rfl⟩
      next hkind =>
        cases hrole
        exact ⟨some (.many1 ⟨mark, hkind⟩), rfl, rfl⟩
      next => cases hrole
    next => exact ⟨none, rfl, rfl⟩
  next => exact ⟨none, rfl, rfl⟩

/-- A scalar that is a single token is a literal or a name. -/
theorem scalarRole?_sound {word : Token TokenKind} {role : String}
    (h : scalarRole? word.kind = some role) :
    ∃ d : Scalar, d.tokens = [word] ∧ d.tree = node .scalar [(role, [leaf word])] := by
  unfold scalarRole? at h
  split at h
  next hkind =>
    cases h
    exact ⟨.singleQuoted ⟨word, hkind⟩, rfl, rfl⟩
  next hkind =>
    cases h
    exact ⟨.doubleQuoted ⟨word, hkind⟩, rfl, rfl⟩
  next hkind =>
    cases h
    exact ⟨.name ⟨word, hkind⟩, rfl, rfl⟩
  next => cases h

-- The recursion is that of the parser: on what is left, and at equal length
-- from elements to an item and from an item to its scalar.
mutual

theorem item_sound {tokens rest : Tokens} {t : Tree} (h : Reads (item tokens) t rest) :
    ∃ d : Item, tokens = d.tokens ++ rest ∧ t = d.tree := by
  obtain ⟨value, middle, hvalue, rfl, rfl⟩ := reads_item.mp h
  obtain ⟨l, hl, hlabel⟩ := label_sound tokens
  obtain ⟨s, hs, hsuffix⟩ := suffix_sound middle
  obtain ⟨d, hd, rfl⟩ := scalar_sound hvalue
  refine ⟨.mk l d s, ?_, ?_⟩
  · rw [Item.tokens, List.append_assoc, List.append_assoc, ← hs, ← hd, ← hl]
  · rw [Item.tree, hlabel, hsuffix]
termination_by (tokens.length, 1)
decreasing_by
  have := (label tokens).short
  rcases Nat.lt_or_eq_of_le (Nat.le_of_lt_succ this) with hlt | heq
  · exact Prod.Lex.left _ _ hlt
  · rw [heq]
    exact Prod.Lex.right _ Nat.zero_lt_one

theorem scalar_sound {tokens rest : Tokens} {t : Tree} (h : Reads (scalar tokens) t rest) :
    ∃ d : Scalar, tokens = d.tokens ++ rest ∧ t = d.tree := by
  rcases reads_scalar.mp h with ⟨word, role, rfl, hrole, rfl⟩ |
    ⟨opening, closing, ts, after, rfl, hopening, hts, hclosing, hne, rfl⟩
  · obtain ⟨d, hd, htree⟩ := scalarRole?_sound hrole
    exact ⟨d, by rw [hd]; rfl, htree.symm⟩
  · obtain ⟨ds, rfl, rfl⟩ := elements_sound hts
    cases ds with
    | nil => exact absurd rfl hne
    | cons first more =>
        refine ⟨.group ⟨opening, hopening⟩ first more ⟨closing, hclosing⟩, ?_, rfl⟩
        simp [Scalar.tokens, elementTokens]
termination_by (tokens.length, 0)
decreasing_by
  apply Prod.Lex.left
  simp_all

theorem elements_sound {tokens rest : Tokens} {ts : List Tree}
    (h : Reads (elements tokens) ts rest) :
    ∃ ds : List Element, tokens = elementTokens ds ++ rest ∧ ts = elementTrees ds := by
  rcases reads_elements.mp h with ⟨bar, more, after, heq, hbar, hmore, rfl⟩ |
    ⟨-, first, middle, more, hfirst, hmore, rfl⟩ | ⟨-, -, rfl, rfl⟩
  · have hshort : after.length < tokens.length := by
      rw [heq]
      exact Nat.lt_succ_self _
    obtain ⟨ds, hds, rfl⟩ := elements_sound hmore
    exact ⟨.bar ⟨bar, hbar⟩ :: ds, by rw [heq, hds]; rfl, rfl⟩
  · have hshort := hfirst.short
    obtain ⟨d, hd, rfl⟩ := item_sound hfirst
    obtain ⟨ds, hds, rfl⟩ := elements_sound hmore
    exact ⟨.item d :: ds, by rw [hd, hds]; exact (List.append_assoc _ _ _).symm, rfl⟩
  · exact ⟨[], rfl, rfl⟩
termination_by (tokens.length, 2)
decreasing_by
  · exact Prod.Lex.left _ _ hshort
  · exact Prod.Lex.right _ (by decide)
  · exact Prod.Lex.left _ _ hshort

end

theorem expressions_sound {tokens : Tokens} (h : Reads (expressions tokens) ts rest) :
    ∃ items : Sequence, tokens = sequenceTokens items ++ rest ∧ ts = expressionTrees items := by
  induction hlength : tokens.length using Nat.strongRecOn generalizing tokens ts with
  | ind n ih =>
      rcases reads_expressions.mp h with ⟨-, first, middle, more, hfirst, hmore, rfl⟩ |
        ⟨-, rfl, rfl⟩
      · have hshort := hfirst.short
        obtain ⟨items, rfl, rfl⟩ := ih _ (hlength ▸ hshort) hmore rfl
        obtain ⟨d, rfl, rfl⟩ := item_sound hfirst
        exact ⟨d :: items, by simp [sequenceTokens], rfl⟩
      · exact ⟨[], rfl, rfl⟩

theorem sequence_sound (h : Reads (sequence tokens) t rest) :
    ∃ items : Sequence, tokens = sequenceTokens items ++ rest ∧ t = sequenceTree items := by
  obtain ⟨ts, hts, rfl⟩ := reads_sequence.mp h
  obtain ⟨items, rfl, rfl⟩ := expressions_sound hts
  exact ⟨items, rfl, rfl⟩

theorem branches_sound {tokens : Tokens} (h : Reads (branches tokens) ts rest) :
    ∃ ds : List Alternative, tokens = ds.flatMap Alternative.tokens ++ rest ∧
      ts = ds.map fun d => branchTree d.sequence := by
  induction hlength : tokens.length using Nat.strongRecOn generalizing tokens ts with
  | ind n ih =>
      rcases reads_branches.mp h with ⟨bar, first, middle, more, after, rfl, hbar, hfirst, hmore, rfl⟩ |
        ⟨-, rfl, rfl⟩
      · have hshort := hfirst.short
        obtain ⟨ds, rfl, rfl⟩ := ih _ (by simp only [List.length_cons] at hlength; omega) hmore rfl
        obtain ⟨items, rfl, rfl⟩ := sequence_sound hfirst
        exact ⟨⟨⟨bar, hbar⟩, items⟩ :: ds, by simp [Alternative.tokens], rfl⟩
      · exact ⟨[], rfl, rfl⟩

theorem hasItems_sequenceTree (items : Sequence) : hasItems (sequenceTree items) = !items.isEmpty := by
  cases items <;> rfl

theorem nextKind_alternatives {after : Tokens} (ds : List Alternative) :
    nextKind (ds.flatMap Alternative.tokens ++ after) =
      if ds.isEmpty then nextKind after else .bar := by
  cases ds with
  | nil => rfl
  | cons d more => exact d.bar.kind_eq

/-- The body of a rule is that of its derivation: whether there is a bar shows in
what follows the leading sequence. -/
theorem leading_append_branches (r : Rule) (after : Tokens)
    (hafter : nextKind after = .semicolon) :
    leading (sequenceTree r.lead) (r.alternatives.flatMap Alternative.tokens ++ after) ++
        r.alternatives.map (fun d => branchTree d.sequence) = r.bodyTrees := by
  have hhas := hasItems_sequenceTree r.lead
  unfold leading Rule.bodyTrees Rule.branches
  rw [nextKind_alternatives, hafter, hhas]
  cases r.alternatives with
  | nil => rfl
  | cons d more =>
      cases r.lead with
      | nil => simp
      | cons item items => simp [branch, branchTree]

theorem rule_sound (h : Reads (rule tokens) t rest) :
    ∃ d : Rule, tokens = d.tokens ++ rest ∧ t = d.tree := by
  obtain ⟨name, colon, semicolon, first, middle, more, after, rfl, hname, hcolon, hfirst, hmore,
    hsemicolon, rfl⟩ := reads_rule.mp h
  obtain ⟨ds, rfl, rfl⟩ := branches_sound hmore
  obtain ⟨lead, rfl, rfl⟩ := sequence_sound hfirst
  refine ⟨⟨⟨name, hname⟩, ⟨colon, hcolon⟩, lead, ds, ⟨semicolon, hsemicolon⟩⟩, ?_, ?_⟩
  · simp [Rule.tokens]
  · rw [Rule.tree, ← leading_append_branches _ (semicolon :: rest) hsemicolon]

theorem ruleList_sound {tokens : Tokens} (h : Reads (ruleList tokens) ts rest) :
    ∃ ds : List Rule, tokens = ds.flatMap Rule.tokens ++ rest ∧ ts = ds.map Rule.tree := by
  induction hlength : tokens.length using Nat.strongRecOn generalizing tokens ts with
  | ind n ih =>
      rcases reads_ruleList.mp h with ⟨-, rfl, rfl⟩ | ⟨-, first, middle, more, hfirst, hmore, rfl⟩
      · exact ⟨[], rfl, rfl⟩
      · have hshort := hfirst.short
        obtain ⟨ds, rfl, rfl⟩ := ih _ (hlength ▸ hshort) hmore rfl
        obtain ⟨d, rfl, rfl⟩ := rule_sound hfirst
        exact ⟨d :: ds, by simp, rfl⟩

/-! ## Options and declarations -/

theorem valueRole?_sound {word : Token TokenKind} {role : String} (h : valueRole? word = some role) :
    ∃ d : OptionValue, d.token = word ∧ d.role = role := by
  unfold valueRole? at h
  split at h
  next hkind =>
    cases h
    exact ⟨.number ⟨word, hkind⟩, rfl, rfl⟩
  next hkind =>
    cases h
    exact ⟨.regex ⟨word, hkind⟩, rfl, rfl⟩
  next hkind =>
    cases h
    exact ⟨.doubleQuoted ⟨word, hkind⟩, rfl, rfl⟩
  next hkind =>
    cases h
    exact ⟨.singleQuoted ⟨word, hkind⟩, rfl, rfl⟩
  next hkind =>
    split at h
    next htrue =>
      cases h
      exact ⟨.true ⟨word, hkind⟩ htrue, rfl, rfl⟩
    next htrue =>
      split at h
      next hfalse =>
        cases h
        exact ⟨.false ⟨word, hkind⟩ hfalse, rfl, rfl⟩
      next hfalse =>
        cases h
        exact ⟨.name ⟨word, hkind⟩ htrue hfalse, rfl, rfl⟩
  next => cases h

theorem optionValue_sound (h : Reads (optionValue tokens) t rest) :
    ∃ d : OptionValue, tokens = d.token :: rest ∧ t = d.tree := by
  obtain ⟨word, role, rfl, hrole, rfl⟩ := reads_optionValue.mp h
  obtain ⟨d, rfl, rfl⟩ := valueRole?_sound hrole
  exact ⟨d, rfl, rfl⟩

theorem option_sound (h : Reads (option tokens) t rest) :
    ∃ d : OptionEntry, tokens = d.tokens ++ rest ∧ t = d.tree := by
  obtain ⟨name, colon, value, middle, rfl, hname, hcolon, hvalue, rfl⟩ := reads_option.mp h
  obtain ⟨d, rfl, rfl⟩ := optionValue_sound hvalue
  exact ⟨⟨⟨name, hname⟩, ⟨colon, hcolon⟩, d⟩, rfl, rfl⟩

theorem options_sound {tokens : Tokens} (h : Reads (options tokens) ts rest) :
    ∃ d : OptionList, tokens = d.tokens ++ rest ∧ ts = d.entries.map OptionEntry.tree := by
  induction hlength : tokens.length using Nat.strongRecOn generalizing tokens ts with
  | ind n ih =>
      rcases reads_options.mp h with ⟨-, rfl, rfl⟩ | ⟨-, first, middle, hfirst, h⟩
      · exact ⟨.none, rfl, rfl⟩
      · have hshort := hfirst.short
        obtain ⟨d, rfl, rfl⟩ := option_sound hfirst
        rcases h with ⟨-, rfl, rfl⟩ | ⟨comma, more, after, rfl, hcomma, hmore, rfl⟩
        · exact ⟨.some d [] none, by simp [OptionList.tokens, optionalToken], rfl⟩
        · obtain ⟨ds, rfl, rfl⟩ :=
            ih _ (by simp only [List.length_append, List.length_cons] at hlength; omega) hmore rfl
          -- A comma before nothing is the trailing one.
          cases ds with
          | none => exact ⟨.some d [] (some ⟨comma, hcomma⟩), by
              simp [OptionList.tokens, optionalToken], rfl⟩
          | some first more trailing =>
              refine ⟨.some d (⟨⟨comma, hcomma⟩, first⟩ :: more) trailing, ?_, rfl⟩
              simp [OptionList.tokens, FurtherOption.tokens]

theorem token_sound (h : Reads (token tokens) t rest) :
    ∃ d : Declaration, tokens = d.tokens ++ rest ∧ t = d.tree := by
  obtain ⟨name, colon, opening, closing, ts, after, rfl, hname, hcolon, hopening, hts, hclosing,
    rfl⟩ := reads_token.mp h
  obtain ⟨ds, rfl, rfl⟩ := options_sound hts
  refine ⟨⟨⟨name, hname⟩, ⟨colon, hcolon⟩, ⟨opening, hopening⟩, ds, ⟨closing, hclosing⟩⟩, ?_, rfl⟩
  simp [Declaration.tokens]

theorem skip_comma_sound (tokens : Tokens) :
    ∃ comma : Option (Terminal .comma), tokens = optionalToken comma ++ skip .comma tokens := by
  unfold skip
  split
  next t rest =>
    split
    next h => exact ⟨some ⟨t, h⟩, rfl⟩
    next => exact ⟨none, rfl⟩
  next => exact ⟨none, rfl⟩

theorem tokenList_sound {tokens : Tokens} (h : Reads (tokenList tokens) ts rest) :
    ∃ ds : List Declared, tokens = ds.flatMap Declared.tokens ++ rest ∧
      ts = ds.map fun d => d.declaration.tree := by
  induction hlength : tokens.length using Nat.strongRecOn generalizing tokens ts with
  | ind n ih =>
      rcases reads_tokenList.mp h with ⟨-, rfl, rfl⟩ | ⟨-, first, middle, more, hfirst, hmore, rfl⟩
      · exact ⟨[], rfl, rfl⟩
      · have hshort := hfirst.short
        have hskip := length_skip_le .comma middle
        obtain ⟨ds, hds, rfl⟩ := ih _ (by omega) hmore rfl
        obtain ⟨d, rfl, rfl⟩ := token_sound hfirst
        obtain ⟨comma, hcomma⟩ := skip_comma_sound middle
        refine ⟨⟨d, comma⟩ :: ds, ?_, rfl⟩
        rw [hcomma, hds]
        simp [Declared.tokens]

/-! ## Fields -/

theorem field_sound (h : Reads (field tokens) t rest) :
    ∃ d : Field, tokens = d.tokens ++ rest ∧ t = d.tree := by
  obtain ⟨name, after, rfl, hname, h⟩ := reads_field.mp h
  rcases h with ⟨hrules, -, block, hblock, rfl⟩ | ⟨hrules, hbody⟩
  · obtain ⟨opening, closing, ts, after, rfl, hopening, hts, hclosing, rfl⟩ :=
      reads_rules.mp hblock
    obtain ⟨ds, rfl, rfl⟩ := ruleList_sound hts
    refine ⟨.rules ⟨name, hname⟩ hrules ⟨opening, hopening⟩ ds ⟨closing, hclosing⟩, ?_, rfl⟩
    simp [Field.tokens]
  · rcases reads_fieldBody.mp hbody with ⟨opening, closing, ts, after, rfl, hopening, hts, hclosing, rfl⟩ |
      ⟨colon, value, after, rfl, hcolon, hvalue, rfl⟩
    · obtain ⟨ds, rfl, rfl⟩ := tokenList_sound hts
      have hnot : name.lexeme ≠ "rules" := fun heq => hrules ⟨heq, hopening⟩
      refine ⟨.declarations ⟨name, hname⟩ hnot ⟨opening, hopening⟩ ds ⟨closing, hclosing⟩, ?_, rfl⟩
      simp [Field.tokens]
    · obtain ⟨d, rfl, rfl⟩ := optionValue_sound hvalue
      exact ⟨.setting ⟨name, hname⟩ ⟨colon, hcolon⟩ d, rfl, rfl⟩

theorem fields_sound {tokens : Tokens} (h : fields tokens = .ok ts) :
    ∃ d : Derivation, tokens = d.tokens ∧ ts = d.map Field.tree := by
  induction hlength : tokens.length using Nat.strongRecOn generalizing tokens ts with
  | ind n ih =>
      rcases fields_eq_ok.mp h with ⟨rfl, rfl⟩ | ⟨first, middle, more, hfirst, hmore, rfl⟩
      · exact ⟨[], rfl, rfl⟩
      · have hshort := hfirst.short
        obtain ⟨ds, rfl, rfl⟩ := ih _ (hlength ▸ hshort) hmore rfl
        obtain ⟨d, rfl, rfl⟩ := field_sound hfirst
        exact ⟨d :: ds, by simp [Derivation.tokens], rfl⟩

/-- Parsed tokens are those of a derivation, and their tree is its tree. -/
theorem ofTokens_sound (h : ofTokens tokens = .ok t) :
    ∃ d : Derivation, tokens = d.tokens ∧ t = d.tree := by
  change fields tokens >>= (fun ts => .ok (node .document [(Role.fields, ts)])) = _ at h
  cases hfields : fields tokens with
  | error e =>
      rw [hfields] at h
      cases h
  | ok ts =>
      rw [hfields] at h
      cases h
      obtain ⟨d, rfl, rfl⟩ := fields_sound hfields
      exact ⟨d, rfl, rfl⟩

end Rulebook.Document
