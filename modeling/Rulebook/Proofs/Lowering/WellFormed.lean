import Mathlib.Tactic
import Rulebook.Proofs.Lowering.Numbers
import Rulebook.Proofs.Surface.Acceptance

/-! # Well-formed grammars

What a grammar is made of once lowering is done with it: fields, declarations
with the five kinds of option value, and rules whose bodies are flat. Lowering
the tree of any document that is parsed gives such a grammar.
-/

namespace Rulebook

/-- A label and a modifier, of which at least one is there. -/
structure IsMark (label modifier : Json) : Prop where
  label_eq : label = .null ∨ ∃ name, label = .string name
  modifier_eq : modifier ∈
    ([.null, .string "optional", .string "many", .string "many1"] : List Json)
  marks : label ≠ .null ∨ modifier ≠ .null

/-- An element of a body. Under a label or modifier stands one element without
any, or a tuple of elements. -/
inductive IsElement : Value → Prop
  | ref (name : String) : IsElement (.ref (.string name))
  | string (text : String) : IsElement (.string (.string text))
  | choice {branches : List (List Value)} (several : 2 ≤ branches.length)
      (elements : ∀ branch ∈ branches, ∀ v ∈ branch, IsElement v) : IsElement (.choice branches)
  | named {value label modifier} (element : IsElement value)
      (bare : ∀ inner label modifier, value ≠ .named inner label modifier)
      (mark : IsMark label modifier) : IsElement (.named value label modifier)
  | namedTuple {elements : List Value} {label modifier} (nonempty : elements ≠ [])
      (flat : ∀ v ∈ elements, IsElement v) (mark : IsMark label modifier) :
      IsElement (.named (.tuple elements) label modifier)

/-- A body of a rule: elements, or one choice with a single branch. -/
inductive IsBody : List Value → Prop
  | elements {body : List Value} (flat : ∀ v ∈ body, IsElement v) : IsBody body
  | single {branch : List Value} (flat : ∀ v ∈ branch, IsElement v) : IsBody [.choice [branch]]

/-- A rule with a body. -/
inductive IsRule : Value → Prop
  | intro (name : String) {body : List Value} (body_ok : IsBody body) :
      IsRule (.ruleDef (.string name) body)

/-- A value of an option. -/
inductive IsOptionValue : Value → Prop
  | whole (i : Int) : IsOptionValue (.number (.int i))
  | float (x : Double) : IsOptionValue (.number (.float x))
  | regex (pattern flags : String) : IsOptionValue (.regex (.string pattern) (.string flags))
  | string (text : String) : IsOptionValue (.string (.string text))
  | identifier (name : String) : IsOptionValue (.identifier (.string name))
  | boolean (b : Bool) : IsOptionValue (.boolean (.bool b))

/-- A declaration of a token: names with values of options. -/
inductive IsDeclaration : Value → Prop
  | intro (name : String) {options : List (Value × Value)}
      (options_ok : ∀ option ∈ options,
        (∃ key, option.1 = .data (.string key)) ∧ IsOptionValue option.2) :
      IsDeclaration (.tokenDef (.string name) options)

/-- A field of a grammar. -/
inductive IsField : Value → Prop
  | tokens {declarations : List Value} (ok : ∀ v ∈ declarations, IsDeclaration v) :
      IsField (.tokenSection declarations (.string "tokens"))
  | rules {rules : List Value} (ok : ∀ v ∈ rules, IsRule v) :
      IsField (.rulesField rules (.string "rules"))
  | other (name : String) : IsField (.otherField (.string name))

/-- A grammar with its fields. -/
inductive IsGrammar : Value → Prop
  | intro {fields : List Value} (ok : ∀ v ∈ fields, IsField v) : IsGrammar (.grammar fields)

namespace Surface

/-! ## Elements -/

/-- What an item gives: an element, or a list that dissolves into elements. -/
def Dissolves (v : Value) : Prop :=
  Value.splice [v] ≠ [] ∧ ∀ w ∈ Value.splice [v], IsElement w

/-- What a scalar gives: an element without a mark, or a list of elements. -/
inductive IsScalarValue : Value → Prop
  | element {v : Value} (element : IsElement v)
      (bare : ∀ inner label modifier, v ≠ .named inner label modifier) : IsScalarValue v
  | list {elements : List Value} (nonempty : elements ≠ [])
      (flat : ∀ v ∈ elements, IsElement v) : IsScalarValue (.list elements)

theorem splice_of_isElement {v : Value} (h : IsElement v) : Value.splice [v] = [v] := by
  cases h <;> rfl

theorem dissolves_of_isElement {v : Value} (h : IsElement v) : Dissolves v := by
  rw [Dissolves, splice_of_isElement h]
  refine ⟨List.cons_ne_nil _ _, ?_⟩
  intro w hw
  rw [List.mem_singleton.mp hw]
  exact h

theorem dissolves_of_isScalarValue {v : Value} (h : IsScalarValue v) : Dissolves v := by
  cases h with
  | element element bare => exact dissolves_of_isElement element
  | list nonempty flat =>
      rw [Dissolves, Value.splice, Sequence.splice, List.flatMap_singleton]
      exact ⟨nonempty, flat⟩

theorem isMark {label : Option Label} {suffix : Option Suffix}
    (h : label.isSome ∨ suffix.isSome) : IsMark (labelData label) (modifierData suffix) := by
  refine ⟨?_, ?_, ?_⟩
  · cases label with
    | none => exact .inl rfl
    | some label => exact .inr ⟨_, rfl⟩
  · cases suffix with
    | none => simp [modifierData]
    | some suffix => cases suffix <;> simp [modifierData]
  · cases label with
    | some label => exact .inl (by simp [labelData])
    | none =>
        cases suffix with
        | none => simp at h
        | some suffix => exact .inr (by cases suffix <;> simp [modifierData])

/-- A mark on what a scalar gives makes an element. -/
theorem dissolves_marked {v : Value} (h : IsScalarValue v) (label : Option Label)
    (suffix : Option Suffix) : Dissolves (marked label suffix v) := by
  unfold marked
  split
  · exact dissolves_of_isScalarValue h
  · next hmark =>
      have hmark : IsMark (labelData label) (modifierData suffix) := by
        refine isMark ?_
        cases label with
        | some label => exact .inl rfl
        | none =>
            cases suffix with
            | some suffix => exact .inr rfl
            | none => exact absurd rfl (hmark rfl)
      refine dissolves_of_isElement ?_
      cases h with
      | element element bare =>
          have hclose : Lowering.closeList v = v := by cases element <;> rfl
          rw [hclose]
          exact .named element bare hmark
      | list nonempty flat => exact .namedTuple nonempty flat hmark

/-- The parts of a group are of elements, and there is one at least. -/
structure AreParts (parts : List (List Value)) : Prop where
  nonempty : parts ≠ []
  elements : ∀ part ∈ parts, ∀ v ∈ part, IsElement v

theorem areParts_modifyHead {v : Value} (h : Dissolves v) {parts : List (List Value)}
    (hparts : AreParts parts) : AreParts (parts.modifyHead (Value.splice [v] ++ ·)) := by
  obtain ⟨part, more, rfl⟩ := List.exists_cons_of_ne_nil hparts.nonempty
  refine ⟨List.cons_ne_nil _ _, ?_⟩
  intro p hp w hw
  rcases List.mem_cons.mp hp with rfl | hmore
  · rcases List.mem_append.mp hw with hsplice | hpart
    · exact h.2 w hsplice
    · exact hparts.elements part List.mem_cons_self w hpart
  · exact hparts.elements p (List.mem_cons_of_mem _ hmore) w hw

/-- A group with a part in it: a list of elements, or a choice between parts. -/
theorem isScalarValue_groupValue {parts : List (List Value)} (h : AreParts parts)
    (hsingle : parts ≠ [[]]) : IsScalarValue (groupValue parts) := by
  unfold groupValue
  split
  · next elements =>
      refine .list ?_ (h.elements elements List.mem_cons_self)
      intro hnil
      exact hsingle (by rw [hnil])
  · next hnot =>
      refine .element (.choice ?_ h.elements) (by simp)
      match parts, h.nonempty, hnot with
      | [elements], _, hnot => exact absurd rfl (hnot elements)
      | _ :: _ :: more, _, _ => simp

-- A group is never a single empty part: its first element is a bar, with a part on
-- either side, or an item, which is not empty. This keeps lists from being empty.
mutual

theorem Item.dissolves (i : Item) : Dissolves i.value := by
  cases i with
  | mk label scalar suffix =>
      rw [Item.value]
      exact dissolves_marked scalar.isScalarValue label suffix

theorem Scalar.isScalarValue (d : Scalar) : IsScalarValue d.value := by
  cases d with
  | singleQuoted literal =>
      rw [Scalar.value]
      exact .element (.string _) (by simp)
  | doubleQuoted literal =>
      rw [Scalar.value]
      exact .element (.string _) (by simp)
  | name name =>
      rw [Scalar.value]
      exact .element (.ref _) (by simp)
  | group opening first more closing =>
      rw [Scalar.value]
      obtain ⟨hparts, hsingle⟩ := first.before_parts (areParts_elementParts more)
      exact isScalarValue_groupValue hparts hsingle

/-- An element in front of parts makes parts that hold something. -/
theorem Element.before_parts (e : Element) {parts : List (List Value)} (h : AreParts parts) :
    AreParts (e.before parts) ∧ e.before parts ≠ [[]] := by
  cases e with
  | bar bar =>
      rw [Element.before]
      refine ⟨⟨List.cons_ne_nil _ _, ?_⟩, ?_⟩
      · intro part hpart w hw
        rcases List.mem_cons.mp hpart with rfl | hmore
        · cases hw
        · exact h.elements part hmore w hw
      · intro heq
        exact h.nonempty (List.cons.inj heq).2
  | item i =>
      rw [Element.before]
      refine ⟨areParts_modifyHead i.dissolves h, ?_⟩
      obtain ⟨part, more, rfl⟩ := List.exists_cons_of_ne_nil h.nonempty
      intro heq
      exact i.dissolves.1 (List.append_eq_nil_iff.mp (List.cons.inj heq).1).1

theorem areParts_elementParts (es : List Element) : AreParts (elementParts es) := by
  cases es with
  | nil =>
      rw [elementParts]
      exact ⟨List.cons_ne_nil _ _, by simp⟩
  | cons e rest =>
      rw [elementParts]
      exact (e.before_parts (areParts_elementParts rest)).1

end

theorem isElement_of_mem_sequenceValues {items : Sequence} {v : Value}
    (h : v ∈ sequenceValues items) : IsElement v := by
  induction items with
  | nil => cases h
  | cons item rest ih =>
      rw [sequenceValues_cons] at h
      rcases List.mem_append.mp h with hitem | hrest
      · exact item.dissolves.2 v hitem
      · exact ih hrest

/-! ## Fields -/

theorem Rule.isBody (r : Rule) : IsBody r.body := by
  unfold Rule.body
  split
  · exact .elements fun v hv => isElement_of_mem_sequenceValues hv
  · next halternatives =>
      have hne := Rule.branches_ne_nil (Bool.eq_false_iff.mpr halternatives)
      have hbranches : ∀ branch ∈ r.branches.map sequenceValues, ∀ v ∈ branch, IsElement v := by
        intro branch hbranch v hv
        obtain ⟨items, -, rfl⟩ := List.mem_map.mp hbranch
        exact isElement_of_mem_sequenceValues hv
      match hmap : r.branches.map sequenceValues with
      | [] => exact absurd (List.map_eq_nil_iff.mp hmap) hne
      | [branch] =>
          rw [hmap] at hbranches
          exact .single (hbranches branch List.mem_cons_self)
      | first :: second :: more =>
          rw [hmap] at hbranches
          refine .elements fun v hv => ?_
          rw [List.mem_singleton.mp hv]
          exact .choice (by simp) hbranches

theorem Rule.isRule (r : Rule) : IsRule r.value := .intro _ r.isBody

theorem isOptionValue_number {text : String} {n : Json} (h : Lowering.numberValue? text = some n) :
    IsOptionValue (.number n) := by
  unfold Lowering.numberValue? at h
  split at h
  · obtain rfl := Option.some.inj h
    exact .whole _
  · obtain ⟨x, -, rfl⟩ := Option.map_eq_some_iff.mp h
    exact .float x

theorem OptionValue.isOptionValue {v : OptionValue} (h : Lowering.NumbersRead [v.token]) :
    IsOptionValue v.value := by
  cases v with
  | number t =>
      obtain ⟨n, hn⟩ := Option.isSome_iff_exists.mp (h t.token List.mem_cons_self t.kind_eq)
      have hvalue : (OptionValue.number t).value = .number n := by
        rw [OptionValue.value, hn]
        rfl
      rw [hvalue]
      exact isOptionValue_number hn
  | regex t => exact .regex _ _
  | doubleQuoted t => exact .string _
  | singleQuoted t => exact .string _
  | true word spelled => exact .boolean _
  | false word spelled => exact .boolean _
  | name t notTrue notFalse => exact .identifier _

/-- Options as a declaration has them. -/
def AreOptions (options : List (Value × Value)) : Prop :=
  ∀ option ∈ options, (∃ key, option.1 = .data (.string key)) ∧ IsOptionValue option.2

theorem areOptions_putOption {options : List (Value × Value)} (h : AreOptions options)
    (key : String) {value : Value} (hvalue : IsOptionValue value) :
    AreOptions (Value.putOption options (.data (.string key)) value) := by
  induction options with
  | nil =>
      intro option hoption
      rw [Value.putOption, List.mem_singleton] at hoption
      rw [hoption]
      exact ⟨⟨key, rfl⟩, hvalue⟩
  | cons first rest ih =>
      obtain ⟨name, old⟩ := first
      have hrest := ih fun option hoption => h option (List.mem_cons_of_mem _ hoption)
      have hfirst := h _ List.mem_cons_self
      intro option hoption
      rw [Value.putOption] at hoption
      split at hoption
      · rcases List.mem_cons.mp hoption with rfl | hmem
        · exact ⟨hfirst.1, hvalue⟩
        · exact h option (List.mem_cons_of_mem _ hmem)
      · rcases List.mem_cons.mp hoption with rfl | hmem
        · exact hfirst
        · exact hrest option hmem

theorem areOptions_foldl {os : List OptionEntry} (h : ∀ o ∈ os, Lowering.NumbersRead o.tokens)
    {options : List (Value × Value)} (hoptions : AreOptions options) :
    AreOptions (os.foldl putEntry options) := by
  induction os generalizing options with
  | nil => exact hoptions
  | cons o rest ih =>
      refine ih (fun o' ho' => h o' (List.mem_cons_of_mem _ ho')) ?_
      have hvalue : Lowering.NumbersRead [o.value.token] :=
        (h o List.mem_cons_self).of_subset fun t ht => by simp_all [OptionEntry.tokens]
      exact areOptions_putOption hoptions _ (OptionValue.isOptionValue hvalue)

theorem Declaration.isDeclaration {d : Declaration} (h : Lowering.NumbersRead d.tokens) :
    IsDeclaration d.value := by
  refine .intro _ (areOptions_foldl ?_ (by simp [AreOptions]))
  intro o ho
  refine h.of_subset fun t ht => ?_
  simp [Declaration.tokens, OptionList.mem_tokens ho ht]

theorem isField_namedFieldValue (name : String) {declared : List Declared}
    (h : ∀ d ∈ declared, Lowering.NumbersRead d.declaration.tokens) :
    IsField (namedFieldValue name declared) := by
  unfold namedFieldValue
  split
  · refine .tokens ?_
    intro v hv
    obtain ⟨d, hd, rfl⟩ := List.mem_map.mp hv
    exact Declaration.isDeclaration (h d hd)
  · exact .other name

theorem Field.isField {f : Field} (h : Lowering.NumbersRead f.tokens) : IsField f.value := by
  cases f with
  | rules keyword spelled opening block closing =>
      refine .rules ?_
      intro v hv
      obtain ⟨r, -, rfl⟩ := List.mem_map.mp hv
      exact r.isRule
  | declarations name notRules opening declared closing =>
      refine isField_namedFieldValue _ ?_
      intro d hd
      exact h.of_subset fun t ht => Field.mem_tokens_of_declared hd ht
  | setting name colon value => exact isField_namedFieldValue _ (by simp)

theorem Derivation.isGrammar {d : Derivation} (h : Lowering.NumbersRead d.tokens) :
    IsGrammar d.value := by
  refine .intro ?_
  intro v hv
  obtain ⟨f, hf, rfl⟩ := List.mem_map.mp hv
  exact Field.isField (h.of_subset fun t ht => List.mem_flatMap.mpr ⟨f, hf, ht⟩)

end Surface

namespace Lowering

/-- Every document that is parsed is lowered, and what it gives is a well-formed
grammar. -/
theorem lower_wellFormed {text : String} {t : Tree} (h : Document.parse text = .ok t) :
    ∃ grammar, lower t = .ok grammar ∧ IsGrammar grammar := by
  obtain ⟨scan, d, hscan, htokens, htree⟩ := Surface.exists_derivation_of_parse h
  have hnumbers : NumbersRead d.tokens := by
    rw [htokens]
    exact numbersRead_scan hscan
  refine ⟨d.value, ?_, Surface.Derivation.isGrammar hnumbers⟩
  rw [← htree]
  exact lower_tree hnumbers

/-- Groups within groups, of which one ends in a bar, and a number with a sign. -/
theorem lower_nestedGroups :
    ∃ t grammar,
      Document.parse
        "rules \x7b r: | x=(a 'b' |)+ ((c)); \x7d tokens \x7b N: \x7b v: -1.5 \x7d \x7d" = .ok t ∧
      lower t = .ok grammar ∧ IsGrammar grammar := by
  have hparse : (Document.parse
      "rules \x7b r: | x=(a 'b' |)+ ((c)); \x7d tokens \x7b N: \x7b v: -1.5 \x7d \x7d").isOk := by cbv
  obtain ⟨t, ht⟩ := exists_of_isOk hparse
  obtain ⟨grammar, hlower, hgrammar⟩ := lower_wellFormed ht
  exact ⟨t, grammar, ht, hlower, hgrammar⟩

end Lowering

end Rulebook
