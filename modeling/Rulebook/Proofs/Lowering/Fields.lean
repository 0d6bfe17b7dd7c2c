import Rulebook.Proofs.Lowering.Derivation

/-! # Lowering a derivation

The tree of every derivation lowers to the value of the derivation, from the
bodies of rules up to the document. Only a number can be in the way: its token
has to read as one.
-/

namespace Rulebook.Surface

theorem Rule.branches_ne_nil {r : Rule} (h : r.alternatives.isEmpty = false) : r.branches ≠ [] := by
  intro hnil
  rw [Rule.branches, List.append_eq_nil_iff, List.map_eq_nil_iff] at hnil
  rw [hnil.2] at h
  cases h

theorem OptionList.mem_tokens {options : OptionList} {o : OptionEntry} (ho : o ∈ options.entries)
    {t : Token TokenKind} (ht : t ∈ o.tokens) : t ∈ options.tokens := by
  cases options with
  | none => cases ho
  | some first more trailing =>
      rw [OptionList.tokens, List.mem_append, List.mem_append]
      rcases List.mem_cons.mp ho with rfl | hmore
      · exact .inl (.inl ht)
      · obtain ⟨further, hfurther, rfl⟩ := List.mem_map.mp hmore
        exact .inl (.inr (List.mem_flatMap.mpr ⟨further, hfurther, List.mem_cons_of_mem _ ht⟩))

theorem Declaration.mem_tokens {d : Declaration} {o : OptionEntry} (ho : o ∈ d.options.entries)
    {t : Token TokenKind} (ht : t ∈ o.tokens) : t ∈ d.tokens := by
  simp [Declaration.tokens, OptionList.mem_tokens ho ht]

theorem Field.mem_tokens_of_declared {name : Terminal .identifier}
    {notRules : name.token.lexeme ≠ "rules"} {opening : Terminal .openBrace}
    {declared : List Declared} {closing : Terminal .closeBrace} {d : Declared} (hd : d ∈ declared)
    {t : Token TokenKind} (ht : t ∈ d.declaration.tokens) :
    t ∈ (Field.declarations name notRules opening declared closing).tokens := by
  have hmem : t ∈ declared.flatMap Declared.tokens :=
    List.mem_flatMap.mpr ⟨d, hd, List.mem_append_left _ ht⟩
  simp [Field.tokens, hmem]

end Rulebook.Surface

namespace Rulebook.Lowering

open Surface
open Document (Tokens node leaf)

/-- Under a role, trees that are all lowered give their values in order. -/
theorem all_outcomes {δ : Type} (tree : δ → Tree) (value : δ → Value) {children : Children}
    {role : String} {ds : List δ} (hunder : children.under role = ds.map tree)
    (h : ∀ d ∈ ds, lower (tree d) = .ok (value d)) :
    (outcomes children).all role = .ok (ds.map value) := by
  rw [Visits.all, outcomes_under, hunder]
  exact mapM_lowered h

theorem nameOf_outcomes {children : Children} {t : Token TokenKind}
    (h : children.under Role.name = [leaf t]) :
    nameOf (outcomes children) = .ok (.string t.lexeme) := by
  rw [nameOf, lexeme?_of_under_cons h]
  rfl

/-! ## Rules -/

/-- The value of the sequence of a rule: nothing if it is empty. -/
def sequenceValue (items : Surface.Sequence) : Value :=
  if items.isEmpty then Value.nothing else .list (sequenceValues items)

theorem lower_sequenceTree (items : Surface.Sequence) :
    lower (sequenceTree items) = .ok (sequenceValue items) := by
  obtain ⟨children, hlower, hunder⟩ :=
    exists_children_of_node .sequence [(Role.expression, expressionTrees items)] (by simp)
  have hexpression : children.under Role.expression = expressionTrees items := by
    rw [hunder, under_cons, if_pos rfl]
  have hall : (outcomes children).all Role.expression = .ok (items.map Item.value) := by
    refine all_outcomes (fun item : Item => node .expression [(Role.value, [item.tree])]) _
      hexpression ?_
    intro item hitem
    rw [lower_expression, lower_item_tree]
  rw [sequenceTree, hlower]
  simp only [ruleFor, sequence, isUsed_outcomes, hexpression, hall, ok_bind, pure_eq_ok]
  cases items <;> rfl

theorem lower_branchTree (items : Surface.Sequence) :
    lower (branchTree items) = .ok (.branch (sequenceValues items)) := by
  obtain ⟨children, hlower, hunder⟩ :=
    exists_children_of_node .branch [(Role.value, [sequenceTree items])] (by simp)
  have hfirst : (outcomes children).first Role.value = .ok (sequenceValue items) := by
    rw [first_outcomes, hunder, under_cons, if_pos rfl, List.head?_cons, Option.getD_some,
      lower_sequenceTree]
  rw [branchTree, hlower]
  simp only [ruleFor, branch, hfirst, ok_bind]
  cases items with
  | nil => rfl
  | cons item rest =>
      simp only [sequenceValue, List.isEmpty_cons, Value.isEmpty, Bool.false_eq_true, if_false]
      split
      · next hempty => rw [List.isEmpty_iff.mp hempty, pure_eq_ok]
      · rfl

theorem ruleBody_nil : ruleBody [] = [] := by
  simp [ruleBody, Sequence.mergeRuns, Sequence.runs, Value.splice, Sequence.splice]

/-- What is nothing has no part in a body. -/
theorem ruleBody_cons_nothing (rest : List Value) :
    ruleBody (Value.nothing :: rest) = ruleBody rest := by
  simp [ruleBody, Value.nothing, Value.isNone]

/-- A list is spliced into a body. -/
theorem ruleBody_cons_list (elements rest : List Value) :
    ruleBody (.list elements :: rest) = elements ++ ruleBody rest := by
  have hkept : (Value.list elements :: rest).filter (fun v => !v.isNone) =
      .list elements :: rest.filter fun v => !v.isNone := List.filter_cons_of_pos rfl
  simp only [ruleBody, hkept, Sequence.mergeRuns]
  rw [Sequence.runs_cons_of_none rfl]
  rfl

/-- Branches become one choice, also if there is only one of them, up to the next list. -/
theorem ruleBody_append_branches {branches : List (List Value)} (hne : branches ≠ [])
    {rest : List Value} (hrest : ∀ v ∈ rest.head?, ∃ elements, v = .list elements) :
    ruleBody (branches.map .branch ++ rest) = .choice branches :: ruleBody rest := by
  have hkept : (branches.map Value.branch ++ rest).filter (fun v => !v.isNone) =
      branches.map .branch ++ rest.filter fun v => !v.isNone := by
    rw [List.filter_append, List.filter_eq_self.mpr]
    intro v hv
    obtain ⟨elements, -, rfl⟩ := List.mem_map.mp hv
    rfl
  have hkey : ∀ v ∈ branches.map Value.branch, (if v.isBranch then some () else none).isSome := by
    intro v hv
    obtain ⟨elements, -, rfl⟩ := List.mem_map.mp hv
    rfl
  have hstop : ∀ v ∈ (rest.filter fun v => !v.isNone).head?,
      (if v.isBranch then some () else none) = none := by
    cases rest with
    | nil => simp
    | cons v more =>
        obtain ⟨elements, rfl⟩ := hrest v rfl
        rintro w ⟨⟩
        rfl
  have hchoose : chooseAmong (branches.map .branch) = .choice branches := by
    simp [chooseAmong, branchElements, Function.comp_def]
  simp only [ruleBody, hkept, Sequence.mergeRuns]
  rw [Sequence.runs_append_of_isSome (fun _ _ => rfl) (by simpa using hne) hkey hstop,
    List.map_cons, List.map_cons, splice_cons]
  obtain - | ⟨first, - | ⟨second, more⟩⟩ := branches
  · exact absurd rfl hne
  · rfl
  · simp only [List.map_cons] at hchoose ⊢
    rw [hchoose]
    rfl

theorem ruleBody_sequence (items : Surface.Sequence) :
    ruleBody [sequenceValue items] = sequenceValues items := by
  cases items with
  | nil => exact (ruleBody_cons_nothing []).trans ruleBody_nil
  | cons item rest =>
      have hlist := ruleBody_cons_list (sequenceValues (item :: rest)) []
      rwa [ruleBody_nil, List.append_nil] at hlist

theorem ruleBody_branches {branches : List Surface.Sequence} (h : branches ≠ []) :
    ruleBody (branches.map fun items => .branch (sequenceValues items)) =
      [.choice (branches.map sequenceValues)] := by
  have hne : branches.map sequenceValues ≠ [] := by simpa using h
  have hchoice := @ruleBody_append_branches _ hne [] (by simp)
  rwa [List.append_nil, List.map_map, ruleBody_nil] at hchoice

/-- A rule lowers to its value. -/
theorem lower_rule_tree (r : Rule) : lower r.tree = .ok r.value := by
  obtain ⟨children, hlower, hunder⟩ :=
    exists_children_of_node .rule [(Role.name, [leaf r.name.token]), (Role.body, r.bodyTrees)]
      (by simp +decide)
  have hname : children.under Role.name = [leaf r.name.token] := by
    rw [hunder, under_cons, if_pos rfl]
  have hbody : children.under Role.body = r.bodyTrees := by
    rw [hunder, under_cons, if_neg (by decide), under_cons, if_pos rfl]
  rw [Rule.tree, hlower]
  simp only [ruleFor, rule, nameOf_outcomes hname, Rule.value, Rule.body]
  rw [Rule.bodyTrees] at hbody
  cases halternatives : r.alternatives.isEmpty with
  | true =>
      rw [if_pos halternatives] at hbody
      have hall : (outcomes children).all Role.body = .ok ([r.lead].map sequenceValue) :=
        all_outcomes sequenceTree sequenceValue hbody fun items _ => lower_sequenceTree items
      rw [hall, ok_bind, ok_bind, pure_eq_ok, List.map_singleton, ruleBody_sequence]
      rfl
  | false =>
      rw [if_neg (by simp [halternatives])] at hbody
      have hall := all_outcomes branchTree (fun items => .branch (sequenceValues items)) hbody
        fun items _ => lower_branchTree items
      rw [hall, ok_bind, ok_bind, pure_eq_ok, ruleBody_branches (Rule.branches_ne_nil halternatives)]
      rfl

/-! ## Options of tokens -/

/-- The tokens for numbers all read as numbers. -/
def NumbersRead (tokens : Tokens) : Prop :=
  ∀ t ∈ tokens, t.kind = .number → (numberValue? t.lexeme).isSome

theorem NumbersRead.of_subset {tokens all : Tokens} (h : NumbersRead all)
    (hsubset : ∀ t ∈ tokens, t ∈ all) : NumbersRead tokens :=
  fun t ht hkind => h t (hsubset t ht) hkind

/-- Of the roles for values, that of the value is the one in use. -/
theorem find?_valueRoles (v : OptionValue) :
    valueRoles.find? (isUsed (outcomes [(v.role, [leaf v.token])])) = some v.role := by
  cases v <;> simp +decide [valueRoles, OptionValue.role, List.find?, under_cons]

theorem lower_optionValue_tree {v : OptionValue} (h : NumbersRead [v.token]) :
    lower v.tree = .ok v.value := by
  have hlexeme : lexeme? (outcomes [(v.role, [leaf v.token])]) v.role = .ok (some v.token.lexeme) :=
    lexeme?_of_under_cons (by rw [under_cons, if_pos rfl])
  have hrule : lower v.tree =
      valueOf (outcomes [(v.role, [leaf v.token])]) v.role (some v.token.lexeme) := by
    rw [OptionValue.tree, lower_node]
    simp only [List.filter_cons, List.isEmpty_cons, Bool.not_false, if_true, List.filter_nil,
      ruleFor, optionValue, find?_valueRoles, hlexeme, ok_bind]
  rw [hrule]
  cases v with
  | number t =>
      obtain ⟨n, hn⟩ := Option.isSome_iff_exists.mp (h t.token List.mem_cons_self t.kind_eq)
      simp +decide [valueOf, OptionValue.role, OptionValue.token, OptionValue.value, hn]
  | _ => simp +decide [valueOf, OptionValue.role, OptionValue.token, OptionValue.value,
      Value.textData]

/-- An option lowers to the pair of its name and its value. -/
theorem lower_entry_tree {o : OptionEntry} (h : NumbersRead o.tokens) :
    lower o.tree = .ok (.tuple [.data (.string o.name.token.lexeme), o.value.value]) := by
  obtain ⟨children, hlower, hunder⟩ :=
    exists_children_of_node .option
      [(Role.name, [leaf o.name.token]), (Role.value, [o.value.tree])] (by simp +decide)
  have hname : children.under Role.name = [leaf o.name.token] := by
    rw [hunder, under_cons, if_pos rfl]
  have hvalue : (outcomes children).first Role.value = .ok o.value.value := by
    have htoken : NumbersRead [o.value.token] :=
      h.of_subset fun t ht => by simp_all [OptionEntry.tokens]
    rw [first_outcomes, hunder, under_cons, if_neg (by decide), under_cons, if_pos rfl,
      List.head?_cons, Option.getD_some, lower_optionValue_tree htoken]
  rw [OptionEntry.tree, hlower]
  simp only [ruleFor, option, nameOf_outcomes hname, hvalue, ok_bind, pure_eq_ok]

theorem addOption_entry (options : List (Value × Value)) (o : OptionEntry) :
    addOption options (.ok (.tuple [.data (.string o.name.token.lexeme), o.value.value])) =
      .ok (putEntry options o) := by
  simp [addOption, pair, Value.items?, Value.isKey, Value.anyWithin, Value.isList, Value.isNode,
    Value.ownData, Json.isKey, putEntry]

theorem foldlM_addOption {os : List OptionEntry} (h : ∀ o ∈ os, NumbersRead o.tokens)
    (options : List (Value × Value)) :
    ((os.map OptionEntry.tree).map fun s => (s, lower s)).foldlM
      (fun options kid => addOption options kid.2) options = .ok (os.foldl putEntry options) := by
  induction os generalizing options with
  | nil => rfl
  | cons o rest ih =>
      have hrest := ih (fun o ho => h o (List.mem_cons_of_mem _ ho)) (putEntry options o)
      simp only [List.map_cons, List.foldlM_cons, lower_entry_tree (h o List.mem_cons_self),
        addOption_entry, ok_bind, List.foldl_cons]
      exact hrest

/-- A declaration lowers to its value. -/
theorem lower_declaration_tree {d : Declaration} (h : NumbersRead d.tokens) :
    lower d.tree = .ok d.value := by
  obtain ⟨children, hlower, hunder⟩ :=
    exists_children_of_node .token
      [(Role.name, [leaf d.name.token]), (Role.options, d.options.entries.map OptionEntry.tree)]
      (by simp +decide)
  have hname : children.under Role.name = [leaf d.name.token] := by
    rw [hunder, under_cons, if_pos rfl]
  have hunderOptions : children.under Role.options = d.options.entries.map OptionEntry.tree := by
    rw [hunder, under_cons, if_neg (by decide), under_cons, if_pos rfl]
  have hentries : ∀ o ∈ d.options.entries, NumbersRead o.tokens :=
    fun o ho => h.of_subset fun t ht => Declaration.mem_tokens ho ht
  rw [Declaration.tree, hlower]
  simp only [ruleFor, token, outcomes_under, hunderOptions, foldlM_addOption hentries,
    nameOf_outcomes hname, ok_bind, pure_eq_ok]
  rfl

/-! ## Fields -/

theorem lower_rules_tree (block : List Rule) :
    lower (node .rules [(Role.rules, block.map Rule.tree)]) =
      .ok (.rulesField (block.map Rule.value) (.string "rules")) := by
  obtain ⟨children, hlower, hunder⟩ :=
    exists_children_of_node .rules [(Role.rules, block.map Rule.tree)] (by simp)
  have hall : (outcomes children).all Role.rules = .ok (block.map Rule.value) :=
    all_outcomes Rule.tree Rule.value (by rw [hunder, under_cons, if_pos rfl])
      fun r _ => lower_rule_tree r
  rw [hlower]
  simp only [ruleFor, rules, hall, ok_bind, pure_eq_ok]

/-- A field without rules gives its name and, as a token section, its tokens. -/
theorem lower_namedField {name : Token TokenKind} {declared : List Declared}
    {children : Children} (hrules : children.under Role.rules = [])
    (hname : children.under Role.name = [leaf name])
    (htokens : children.under Role.tokens = declared.map fun d => d.declaration.tree)
    (h : name.lexeme = "tokens" → ∀ d ∈ declared, NumbersRead d.declaration.tokens) :
    field (outcomes children) = .ok (namedFieldValue name.lexeme declared) := by
  have hfirst : children.first? Role.rules = none := by
    rw [Children.first?, hrules]
  simp only [field, outcomes_children, hfirst, lexeme?_of_under_cons hname, ok_bind,
    Option.some.injEq, namedFieldValue]
  by_cases hsection : name.lexeme = "tokens"
  · have hall := all_outcomes (fun d : Declared => d.declaration.tree)
      (fun d => d.declaration.value) htokens
      fun d hd => lower_declaration_tree (h hsection d hd)
    rw [if_pos hsection, if_pos hsection, hall, ok_bind, pure_eq_ok]
  · rw [if_neg hsection, if_neg hsection]
    rfl

/-- A field lowers to its value. -/
theorem lower_field_tree {f : Field} (h : NumbersRead f.tokens) :
    lower f.tree = .ok f.value := by
  cases f with
  | rules keyword spelled opening block closing =>
      rw [Field.tree, lower_node, Field.value]
      have hfirst : (outcomes [(Role.rules, [node .rules [(Role.rules, block.map Rule.tree)]])]).first
          Role.rules = .ok (.rulesField (block.map Rule.value) (.string "rules")) := by
        rw [first_outcomes, under_cons, if_pos rfl, List.head?_cons, Option.getD_some,
          lower_rules_tree]
      have hkept : Children.first? [(Role.rules, [node .rules [(Role.rules, block.map Rule.tree)]])]
          Role.rules = some (node .rules [(Role.rules, block.map Rule.tree)]) := by
        rw [Children.first?, under_cons, if_pos rfl]
        rfl
      simp only [List.filter_cons, List.isEmpty_cons, Bool.not_false, if_true, List.filter_nil,
        ruleFor, field, outcomes_children, hkept, hfirst]
  | declarations name notRules opening declared closing =>
      obtain ⟨children, hlower, hunder⟩ :=
        exists_children_of_node .field [(Role.name, [leaf name.token]),
          (Role.tokens, declared.map fun d => d.declaration.tree)] (by simp +decide)
      rw [Field.tree, hlower, Field.value]
      refine lower_namedField ?_ ?_ ?_ ?_
      · rw [hunder]
        simp +decide [under_cons]
      · rw [hunder]
        simp +decide [under_cons]
      · rw [hunder]
        simp +decide [under_cons]
      · intro _ d hd
        exact h.of_subset fun t ht => Field.mem_tokens_of_declared hd ht
  | setting name colon value =>
      obtain ⟨children, hlower, hunder⟩ :=
        exists_children_of_node .field [(Role.name, [leaf name.token]), (Role.value, [value.tree])]
          (by simp +decide)
      rw [Field.tree, hlower, Field.value]
      refine lower_namedField ?_ ?_ ?_ ?_
      · rw [hunder]
        simp +decide [under_cons]
      · rw [hunder]
        simp +decide [under_cons]
      · rw [hunder]
        simp +decide [under_cons]
      · intro _ d hd
        cases hd

/-- The tree of a derivation lowers to the value of the derivation. -/
theorem lower_tree {d : Derivation} (h : NumbersRead d.tokens) : lower d.tree = .ok d.value := by
  obtain ⟨children, hlower, hunder⟩ :=
    exists_children_of_node .document [(Role.fields, d.map Field.tree)] (by simp)
  have hall : (outcomes children).all Role.fields = .ok (d.map Field.value) := by
    refine all_outcomes Field.tree Field.value (by rw [hunder, under_cons, if_pos rfl]) ?_
    intro f hf
    refine lower_field_tree (h.of_subset fun t ht => ?_)
    exact List.mem_flatMap.mpr ⟨f, hf, ht⟩
  rw [Derivation.tree, hlower]
  simp only [ruleFor, document, hall, ok_bind, pure_eq_ok]
  rfl

end Rulebook.Lowering
