import Rulebook.Proofs.Grammar.RoundTrip
import Rulebook.Proofs.Lowering.WellFormed

/-! # Lowered grammars are well-typed

The grammar of every text is well-typed. Of the options of a token with one name only the
last one is left, and each number is one of the double format or a whole number that is
short enough to be read again.
-/

namespace Rulebook

open Json

variable {allowed : Int → Prop}

/-! ## Rules -/

theorem IsMark.isOptionalText {label modifier : Json} (h : IsMark label modifier) :
    IsOptionalText label ∧ IsOptionalText modifier := by
  refine ⟨h.label_eq, ?_⟩
  have hmodifier := h.modifier_eq
  simp only [List.mem_cons, List.not_mem_nil, or_false] at hmodifier
  rcases hmodifier with rfl | rfl | rfl | rfl
  · exact .inl rfl
  · exact .inr ⟨_, rfl⟩
  · exact .inr ⟨_, rfl⟩
  · exact .inr ⟨_, rfl⟩

theorem IsElement.isAst {v : Value} (h : IsElement v) : IsAst allowed v := by
  induction h with
  | ref name => exact .ref name
  | string text => exact .string text
  | choice several elements ih => exact .choice ih
  | named element bare mark ih =>
      obtain ⟨hlabel, hmodifier⟩ := mark.isOptionalText
      exact .named ih hlabel hmodifier
  | namedTuple nonempty flat mark ih =>
      obtain ⟨hlabel, hmodifier⟩ := mark.isOptionalText
      exact .named (.tuple ih) hlabel hmodifier

theorem IsBody.isAst {body : List Value} (h : IsBody body) : ∀ v ∈ body, IsAst allowed v := by
  cases h with
  | elements flat => exact fun v hv => (flat v hv).isAst
  | single flat =>
      exact List.forall_mem_singleton.mpr
        (.choice (List.forall_mem_singleton.mpr fun v hv => (flat v hv).isAst))

theorem IsRule.isAst {v : Value} (h : IsRule v) : IsAst allowed v := by
  cases h with
  | intro name body_ok => exact .ruleDef name body_ok.isAst

/-! ## Tokens -/

namespace Value

/-- One more option among options with distinct names: its name is there once. -/
theorem exists_putOption {p : Value → Prop} {named : List (String × Value)}
    (distinct : (named.map Prod.fst).Nodup) (hnamed : ∀ o ∈ named, p o.2) (key : String) {v : Value}
    (hv : p v) :
    ∃ more : List (String × Value),
      putOption (textOptions named) (.data (.string key)) v = textOptions more ∧
      (more.map Prod.fst).Nodup ∧ (∀ k ∈ more.map Prod.fst, k = key ∨ k ∈ named.map Prod.fst) ∧
      ∀ o ∈ more, p o.2 := by
  induction named with
  | nil => exact ⟨[(key, v)], rfl, List.nodup_singleton key, by simp, by simpa using hv⟩
  | cons o rest ih =>
      obtain ⟨name, old⟩ := o
      obtain ⟨hnew, hdistinct⟩ := List.nodup_cons.mp distinct
      obtain ⟨hold, hrest⟩ := List.forall_mem_cons.mp hnamed
      have htext : (Value.data (.string key)).isIndefinite = false := rfl
      rw [textOptions, List.map_cons, putOption, sameWith_textName, htext]
      by_cases hname : name = key
      · refine ⟨(name, v) :: rest, ?_, distinct, fun k hk => .inr hk, ?_⟩
        · rw [if_pos (by simp [hname])]
          rfl
        · exact List.forall_mem_cons.mpr ⟨hv, hrest⟩
      · obtain ⟨more, hput, hmore, hkeys, hvalues⟩ := ih hdistinct hrest
        refine ⟨(name, old) :: more, ?_, ?_, ?_, List.forall_mem_cons.mpr ⟨hold, hvalues⟩⟩
        · rw [if_neg (by simp [hname]), hput]
          rfl
        · refine List.nodup_cons.mpr ⟨fun hmem => ?_, hmore⟩
          rcases hkeys name hmem with heq | hmem
          · exact hname heq
          · exact hnew hmem
        · intro k hk
          rcases List.mem_cons.mp hk with rfl | hk
          · exact .inr List.mem_cons_self
          · exact (hkeys k hk).imp_right (List.mem_cons_of_mem _)

end Value

namespace Surface

open Document (Tokens)

/-- The tokens for numbers are all in writing as numbers are. -/
def NumeralTokens (tokens : Tokens) : Prop :=
  ∀ t ∈ tokens, t.kind = .number → IsNumeral t.lexeme.toList

theorem NumeralTokens.of_subset {tokens all : Tokens} (h : NumeralTokens all)
    (hsubset : ∀ t ∈ tokens, t ∈ all) : NumeralTokens tokens :=
  fun t ht hkind => h t (hsubset t ht) hkind

theorem OptionValue.isAst {v : OptionValue} (h : NumeralTokens [v.token]) :
    IsAst IsReadable v.value := by
  cases v with
  | number t =>
      rw [OptionValue.value]
      unfold Lowering.numberValue?
      split
      · next i hi => exact .whole (Numeral.isReadable_of_integer? hi)
      · obtain ⟨negative, digits, power, hdouble⟩ :=
          Numeral.exists_ofDecimal_of_isNumeral (h t.token List.mem_cons_self t.kind_eq)
        rw [hdouble]
        exact .float (Double.isNumber_ofDecimal negative digits power)
  | regex t => exact .regex _ _
  | doubleQuoted t => exact .string _
  | singleQuoted t => exact .string _
  | true word spelled => exact .boolean _
  | false word spelled => exact .boolean _
  | name t notTrue notFalse => exact .identifier _

/-- Options that are put one by one among others keep distinct names. -/
theorem exists_foldl_putEntry {os : List OptionEntry} (h : ∀ o ∈ os, NumeralTokens o.tokens)
    {named : List (String × Value)} (distinct : (named.map Prod.fst).Nodup)
    (hnamed : ∀ o ∈ named, IsAst IsReadable o.2) :
    ∃ more : List (String × Value),
      os.foldl putEntry (Value.textOptions named) = Value.textOptions more ∧
      (more.map Prod.fst).Nodup ∧ ∀ o ∈ more, IsAst IsReadable o.2 := by
  induction os generalizing named with
  | nil => exact ⟨named, rfl, distinct, hnamed⟩
  | cons o rest ih =>
      obtain ⟨ho, hrest⟩ := List.forall_mem_cons.mp h
      have hvalue : IsAst IsReadable o.value.value :=
        OptionValue.isAst (ho.of_subset fun t ht => by simp_all [OptionEntry.tokens])
      obtain ⟨put, hput, hdistinct, -, hvalues⟩ :=
        Value.exists_putOption distinct hnamed o.name.token.lexeme hvalue
      rw [List.foldl_cons, putEntry, hput]
      exact ih hrest hdistinct hvalues

theorem Declaration.isAst {d : Declaration} (h : NumeralTokens d.tokens) :
    IsAst IsReadable d.value := by
  have hentries : ∀ o ∈ d.options.entries, NumeralTokens o.tokens :=
    fun o ho => h.of_subset fun t ht => Declaration.mem_tokens ho ht
  obtain ⟨named, hfold, distinct, hnamed⟩ :=
    @exists_foldl_putEntry _ hentries [] List.nodup_nil (by simp)
  have hvalue : d.value = .tokenDef (.string d.name.token.lexeme) (Value.textOptions named) :=
    congrArg _ hfold
  rw [hvalue]
  exact .tokenDef _ distinct hnamed

/-! ## Fields -/

theorem isAst_namedFieldValue (name : String) {declared : List Declared}
    (h : ∀ d ∈ declared, NumeralTokens d.declaration.tokens) :
    IsAst IsReadable (namedFieldValue name declared) := by
  unfold namedFieldValue
  split
  · refine .tokenSection (fun v hv => ?_) "tokens"
    obtain ⟨d, hd, rfl⟩ := List.mem_map.mp hv
    exact Declaration.isAst (h d hd)
  · exact .otherField name

theorem Field.isAst {f : Field} (h : NumeralTokens f.tokens) : IsAst IsReadable f.value := by
  cases f with
  | rules keyword spelled opening block closing =>
      refine .rulesField (fun v hv => ?_) "rules"
      obtain ⟨r, -, rfl⟩ := List.mem_map.mp hv
      exact r.isRule.isAst
  | declarations name notRules opening declared closing =>
      exact isAst_namedFieldValue _ fun d hd =>
        h.of_subset fun t ht => Field.mem_tokens_of_declared hd ht
  | setting name colon value => exact isAst_namedFieldValue _ (by simp)

theorem Derivation.isAst {d : Derivation} (h : NumeralTokens d.tokens) :
    IsAst IsReadable d.value := by
  refine .grammar fun v hv => ?_
  obtain ⟨f, hf, rfl⟩ := List.mem_map.mp hv
  exact Field.isAst (h.of_subset fun t ht => List.mem_flatMap.mpr ⟨f, hf, ht⟩)

end Surface

/-- What a document lowers to is well-typed. -/
theorem Lowering.lower_isAst {text : String} {t : Tree} (h : Document.parse text = .ok t) :
    ∃ v, lower t = .ok v ∧ IsAst IsReadable v := by
  obtain ⟨scan, d, hscan, htokens, htree⟩ := Surface.exists_derivation_of_parse h
  have hnumbers : NumbersRead d.tokens := htokens ▸ numbersRead_scan hscan
  have hnumerals : Surface.NumeralTokens d.tokens :=
    htokens ▸ fun t ht hkind => Scan.isNumeral_lexeme hscan ht hkind
  exact ⟨d.value, htree ▸ lower_tree hnumbers, Surface.Derivation.isAst hnumerals⟩

/-- The grammar of a text is well-typed. -/
theorem isAst_of_lowerText {text : String} {v : Value} (h : lowerText text = .ok v) :
    IsAst IsReadable v := by
  unfold lowerText at h
  split at h
  · cases h
  · next t hparse =>
      obtain ⟨w, hlower, hast⟩ := Lowering.lower_isAst hparse
      rw [hlower] at h
      cases h
      exact hast

end Rulebook
