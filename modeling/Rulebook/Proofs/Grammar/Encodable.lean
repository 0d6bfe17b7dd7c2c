import Rulebook.Grammar.Equality
import Rulebook.Grammar.Encoding
import Rulebook.Proofs.Grammar.Within
import Rulebook.Proofs.Json.RoundTrip

/-! # Values with an encoding

What matters for the encoding of a value is its kind, and that the names of its options are
texts. Data may stand in it wherever a value carries data, well-typed or not: it comes back
from the encoding as it is.
-/

namespace Rulebook

open Json

/-- A value with an encoding, or a tuple of them: the data that it carries is as asked for,
and the names of options are distinct texts. -/
inductive IsEncodable (ok : Json → Prop) : Value → Prop
  | tuple {elements : List Value} (elements_ok : ∀ v ∈ elements, IsEncodable ok v) :
      IsEncodable ok (.tuple elements)
  | grammar {fields : List Value} (fields_ok : ∀ v ∈ fields, IsEncodable ok v) :
      IsEncodable ok (.grammar fields)
  | tokenSection {tokens : List Value} {name : Json} (tokens_ok : ∀ v ∈ tokens, IsEncodable ok v)
      (name_ok : ok name) : IsEncodable ok (.tokenSection tokens name)
  | otherField {name : Json} (name_ok : ok name) : IsEncodable ok (.otherField name)
  | rulesField {rules : List Value} {name : Json} (rules_ok : ∀ v ∈ rules, IsEncodable ok v)
      (name_ok : ok name) : IsEncodable ok (.rulesField rules name)
  | tokenDef {name : Json} {options : List (String × Value)} (name_ok : ok name)
      (distinct : (options.map Prod.fst).Nodup) (options_ok : ∀ o ∈ options, IsEncodable ok o.2) :
      IsEncodable ok (.tokenDef name (options.map fun o => (.data (.string o.1), o.2)))
  | ruleDef {name : Json} {body : List Value} (name_ok : ok name)
      (body_ok : ∀ v ∈ body, IsEncodable ok v) : IsEncodable ok (.ruleDef name body)
  | number {value : Json} (value_ok : ok value) : IsEncodable ok (.number value)
  | regex {pattern flags : Json} (pattern_ok : ok pattern) (flags_ok : ok flags) :
      IsEncodable ok (.regex pattern flags)
  | string {text : Json} (text_ok : ok text) : IsEncodable ok (.string text)
  | identifier {name : Json} (name_ok : ok name) : IsEncodable ok (.identifier name)
  | boolean {value : Json} (value_ok : ok value) : IsEncodable ok (.boolean value)
  | ref {name : Json} (name_ok : ok name) : IsEncodable ok (.ref name)
  | choice {branches : List (List Value)}
      (branches_ok : ∀ branch ∈ branches, ∀ v ∈ branch, IsEncodable ok v) :
      IsEncodable ok (.choice branches)
  | named {value : Value} {label modifier : Json} (inner_ok : IsEncodable ok value)
      (label_ok : ok label) (modifier_ok : ok modifier) :
      IsEncodable ok (.named value label modifier)

theorem IsEncodable.mono {ok ok' : Json → Prop} (hok : ∀ j, ok j → ok' j) {x : Value}
    (h : IsEncodable ok x) : IsEncodable ok' x := by
  induction h with
  | tuple _ ih => exact .tuple ih
  | grammar _ ih => exact .grammar ih
  | tokenSection _ name_ok ih => exact .tokenSection ih (hok _ name_ok)
  | otherField name_ok => exact .otherField (hok _ name_ok)
  | rulesField _ name_ok ih => exact .rulesField ih (hok _ name_ok)
  | tokenDef name_ok distinct _ ih => exact .tokenDef (hok _ name_ok) distinct ih
  | ruleDef name_ok _ ih => exact .ruleDef (hok _ name_ok) ih
  | number value_ok => exact .number (hok _ value_ok)
  | regex pattern_ok flags_ok => exact .regex (hok _ pattern_ok) (hok _ flags_ok)
  | string text_ok => exact .string (hok _ text_ok)
  | identifier name_ok => exact .identifier (hok _ name_ok)
  | boolean value_ok => exact .boolean (hok _ value_ok)
  | ref name_ok => exact .ref (hok _ name_ok)
  | choice _ ih => exact .choice ih
  | named _ label_ok modifier_ok ih => exact .named ih (hok _ label_ok) (hok _ modifier_ok)

namespace Value

variable {allowed : Int → Prop}

/-- Options with their names as data. -/
abbrev textOptions (options : List (String × Value)) : List (Value × Value) :=
  options.map fun o => (.data (.string o.1), o.2)

/-- Only values of the same kind are equal. -/
theorem ctorIdx_eq_of_sameWith {a b : Value} {ordered : Bool} (h : a.sameWith ordered b = true) :
    a.ctorIdx = b.ctorIdx := by
  rw [sameWith.eq_def] at h
  split at h
  case h_20 => cases h
  all_goals rfl

theorem sameWith_textName (ordered : Bool) (s t : String) :
    (Value.data (.string s)).sameWith ordered (.data (.string t)) = decide (s = t) := by
  simp [sameWith, Json.same, Json.sameScalar, beq_eq_decide]

/-- A value is encoded as data that decodes to it. -/
def Encodes (allowed : Int → Prop) (v : Value) (j : Json) : Prop :=
  v.encode = .ok j ∧ IsData allowed j ∧ decode j = .ok v

theorem exists_encodeAll {vs : List Value} (h : ∀ v ∈ vs, ∃ j, Encodes allowed v j) :
    ∃ js, encodeAll vs = .ok js ∧ (∀ j ∈ js, IsData allowed j) ∧ decodeAll js = .ok vs := by
  induction vs with
  | nil => exact ⟨[], by rw [encodeAll]; rfl, by simp, by rw [decodeAll]; rfl⟩
  | cons v rest ih =>
      obtain ⟨j, hencode, hdata, hdecode⟩ := h v List.mem_cons_self
      obtain ⟨js, hencodeAll, hdataAll, hdecodeAll⟩ :=
        ih fun w hw => h w (List.mem_cons_of_mem _ hw)
      refine ⟨j :: js, ?_, ?_, ?_⟩
      · rw [encodeAll, hencode, hencodeAll]
        rfl
      · exact List.forall_mem_cons.mpr ⟨hdata, hdataAll⟩
      · rw [decodeAll, hdecode, hdecodeAll]
        rfl

theorem exists_encodeBranches {branches : List (List Value)}
    (h : ∀ branch ∈ branches, ∀ v ∈ branch, ∃ j, Encodes allowed v j) :
    ∃ js, encodeBranches branches = .ok js ∧ (∀ j ∈ js, IsData allowed j) ∧
      decodeBranches js = .ok branches := by
  induction branches with
  | nil => exact ⟨[], by rw [encodeBranches]; rfl, by simp, by rw [decodeBranches]; rfl⟩
  | cons elements rest ih =>
      obtain ⟨es, hencode, hdata, hdecode⟩ := exists_encodeAll (h elements List.mem_cons_self)
      obtain ⟨js, hencodeRest, hdataRest, hdecodeRest⟩ :=
        ih fun other hother => h other (List.mem_cons_of_mem _ hother)
      refine ⟨.array es :: js, ?_, ?_, ?_⟩
      · rw [encodeBranches, hencode, hencodeRest]
        rfl
      · exact List.forall_mem_cons.mpr ⟨.array hdata, hdataRest⟩
      · rw [decodeBranches, decodeSequence, hdecode, hdecodeRest]
        rfl

theorem exists_encodeOptions {options : List (String × Value)}
    (h : ∀ o ∈ options, ∃ j, Encodes allowed o.2 j) :
    ∃ members, encodeOptions (textOptions options) = .ok members ∧
      members.map Prod.fst = options.map Prod.fst ∧ (∀ m ∈ members, IsData allowed m.2) ∧
      decodeOptions members = .ok (textOptions options) := by
  induction options with
  | nil => exact ⟨[], by rw [textOptions, List.map_nil, encodeOptions]; rfl, rfl, by simp, by rw [decodeOptions]; rfl⟩
  | cons o rest ih =>
      obtain ⟨j, hencode, hdata, hdecode⟩ := h o List.mem_cons_self
      obtain ⟨members, hencodeRest, hkeys, hdataRest, hdecodeRest⟩ :=
        ih fun other hother => h other (List.mem_cons_of_mem _ hother)
      refine ⟨(o.1, j) :: members, ?_, ?_, ?_, ?_⟩
      · rw [textOptions, List.map_cons, encodeOptions, hencode, hencodeRest]
        rfl
      · rw [List.map_cons, List.map_cons, hkeys]
      · exact List.forall_mem_cons.mpr ⟨hdata, hdataRest⟩
      · rw [decodeOptions, hdecode, hdecodeRest]
        rfl

theorem member_cons (key k : String) (j : Json) (rest : List (String × Json)) :
    member key ((k, j) :: rest) = if key = k then .ok j else member key rest := by
  rw [member, Sequence.lookup_cons_eq_ite]
  by_cases h : key = k
  · rw [if_pos h, if_pos h]
  · rw [if_neg h, if_neg h, member]

theorem memberOr_cons (key k : String) (default j : Json) (rest : List (String × Json)) :
    memberOr key default ((k, j) :: rest) = if key = k then j else memberOr key default rest := by
  rw [memberOr, Sequence.lookup_cons_eq_ite]
  by_cases h : key = k
  · rw [if_pos h, if_pos h, Option.getD_some]
  · rw [if_neg h, if_neg h, memberOr]

/-- A value is encoded if it is encoded as an object that names its type and
decodes to it. -/
theorem exists_encodes_of_tagged {v : Value} (type : String) (members : List (String × Json))
    (hencode : v.encode = .ok (tagged type members))
    (hdecode : decode (tagged type members) = .ok v)
    (distinct : ("type" :: members.map Prod.fst).Nodup)
    (hdata : ∀ m ∈ members, IsData allowed m.2) : ∃ j, Encodes allowed v j :=
  ⟨_, hencode, .object distinct (List.forall_mem_cons.mpr ⟨.string type, hdata⟩), hdecode⟩

/-- The case of a single member. -/
theorem exists_encodes_of_member {v : Value} {j : Json} (type key : String)
    (hkey : "type" ≠ key) (hj : IsData allowed j)
    (hencode : v.encode = .ok (tagged type [(key, j)]))
    (hdecode : decode (tagged type [(key, j)]) = .ok v) : ∃ j, Encodes allowed v j := by
  refine exists_encodes_of_tagged type [(key, j)] hencode hdecode ?_ ?_
  · simp [hkey]
  · exact List.forall_mem_singleton.mpr hj

/-- The case of a sequence of values after other members. -/
theorem exists_encodes_of_elements {v : Value} {elements : List Value} (type : String)
    (own : List (String × Json)) (key : String)
    (h : ∀ e ∈ elements, ∃ j, Encodes allowed e j) (hown : ∀ m ∈ own, IsData allowed m.2)
    (distinct : ("type" :: (own.map Prod.fst ++ [key])).Nodup)
    (hencode : ∀ js, encodeAll elements = .ok js →
      v.encode = .ok (tagged type (own ++ [(key, .array js)])))
    (hdecode : ∀ js, decodeAll js = .ok elements →
      decode (tagged type (own ++ [(key, .array js)])) = .ok v) :
    ∃ j, Encodes allowed v j := by
  obtain ⟨js, hjs, hdata, helements⟩ := exists_encodeAll h
  refine exists_encodes_of_tagged type _ (hencode js hjs) (hdecode js helements) ?_ ?_
  · rwa [List.map_append]
  · exact List.forall_mem_append.mpr ⟨hown, List.forall_mem_singleton.mpr (.array hdata)⟩

/-- Every value with an encoding is encoded as data that decodes to it. -/
theorem exists_encodes_of_isEncodable {x : Value} (h : IsEncodable (IsData allowed) x) :
    ∃ j, Encodes allowed x j := by
  -- By kind of node: the members it is written with are those that are looked up.
  induction h with
  | tuple _ ih =>
      obtain ⟨js, hencode, hdata, hdecode⟩ := exists_encodeAll ih
      refine ⟨.array js, ?_, .array hdata, ?_⟩
      · rw [encode, hencode]
        rfl
      · rw [decode, hdecode]
        rfl
  | grammar _ ih =>
      refine exists_encodes_of_elements "grammar" [] "fields" ih (by simp) (by simp) ?_ ?_
      · intro js hjs
        rw [encode, hjs]
        rfl
      · intro js hjs
        simp [tagged, decode, sequenceAt, decodeSequence, hjs]
  | @tokenSection tokens name _ name_ok ih =>
      refine exists_encodes_of_elements "token_section" [("name", name)] "tokens" ih
        (List.forall_mem_singleton.mpr name_ok) (by simp) ?_ ?_
      · intro js hjs
        rw [encode, hjs]
        rfl
      · intro js hjs
        simp [tagged, decode, sequenceAt, decodeSequence, hjs, memberOr_cons]
  | otherField name_ok =>
      refine exists_encodes_of_member "other_field" "name" (by decide) name_ok ?_ ?_
      · rw [encode]
        rfl
      · simp [tagged, decode, member_cons]
  | @rulesField rules name _ name_ok ih =>
      refine exists_encodes_of_elements "rules_field" [("name", name)] "rules" ih
        (List.forall_mem_singleton.mpr name_ok) (by simp) ?_ ?_
      · intro js hjs
        rw [encode, hjs]
        rfl
      · intro js hjs
        simp [tagged, decode, sequenceAt, decodeSequence, hjs, memberOr_cons]
  | @tokenDef name options name_ok distinct _ ih =>
      obtain ⟨members, hencode, hkeys, hdata, hdecode⟩ := exists_encodeOptions ih
      refine exists_encodes_of_tagged "token_def"
        [("name", name), ("options", .object members)] ?_ ?_ ?_ ?_
      · rw [encode, hencode]
        rfl
      · simp [tagged, decode, optionsAt, hdecode, member_cons]
      · simp
      · simpa using ⟨name_ok, IsData.object (hkeys ▸ distinct) hdata⟩
  | @ruleDef name body name_ok _ ih =>
      refine exists_encodes_of_elements "rule_def" [("name", name)] "body" ih
        (List.forall_mem_singleton.mpr name_ok) (by simp) ?_ ?_
      · intro js hjs
        rw [encode, hjs]
        rfl
      · intro js hjs
        simp [tagged, decode, sequenceAt, decodeSequence, hjs, member_cons]
  | number value_ok =>
      refine exists_encodes_of_member "number" "value" (by decide) value_ok ?_ ?_
      · rw [encode]
        rfl
      · simp [tagged, decode, member_cons]
  | @regex pattern flags pattern_ok flags_ok =>
      refine exists_encodes_of_tagged "regex"
        [("pattern", pattern), ("flags", flags)] ?_ ?_ ?_ ?_
      · rw [encode]
        rfl
      · simp [tagged, decode, member_cons, memberOr_cons]
      · simp
      · simpa using ⟨pattern_ok, flags_ok⟩
  | string text_ok =>
      refine exists_encodes_of_member "string" "text" (by decide) text_ok ?_ ?_
      · rw [encode]
        rfl
      · simp [tagged, decode, member_cons]
  | identifier name_ok =>
      refine exists_encodes_of_member "identifier" "name" (by decide) name_ok ?_ ?_
      · rw [encode]
        rfl
      · simp [tagged, decode, member_cons]
  | boolean value_ok =>
      refine exists_encodes_of_member "boolean" "value" (by decide) value_ok ?_ ?_
      · rw [encode]
        rfl
      · simp [tagged, decode, member_cons]
  | ref name_ok =>
      refine exists_encodes_of_member "ref" "name" (by decide) name_ok ?_ ?_
      · rw [encode]
        rfl
      · simp [tagged, decode, member_cons]
  | choice _ ih =>
      obtain ⟨js, hencode, hdata, hdecode⟩ := exists_encodeBranches ih
      refine exists_encodes_of_member "or" "branches" (by decide) (.array hdata) ?_ ?_
      · rw [encode, hencode]
        rfl
      · simp [tagged, decode, branchesAt, hdecode]
  | @named value label modifier _ label_ok modifier_ok ih =>
      obtain ⟨j, hencode, hdata, hdecode⟩ := ih
      refine exists_encodes_of_tagged "named"
        [("label", label), ("modifier", modifier), ("value", j)] ?_ ?_ ?_ ?_
      · rw [encode, hencode]
        rfl
      · simp [tagged, decode, valueAt, hdecode, memberOr_cons]
      · simp
      · simpa using ⟨label_ok, modifier_ok, hdata⟩

/-! ## Keys of options -/

section Within

variable {p : Value → Bool}

theorem anyAmong_eq_false {vs : List Value} (h : ∀ v ∈ vs, v.anyWithin p = false) :
    anyAmong p vs = false := by
  simpa [anyAmong_eq_any] using h

theorem anyAmongBranches_eq_false {branches : List (List Value)}
    (h : ∀ branch ∈ branches, ∀ v ∈ branch, v.anyWithin p = false) :
    anyAmongBranches p branches = false := by
  simpa [anyAmongBranches_eq_any, anyAmong_eq_any] using h

theorem anyAmongOptions_eq_false {options : List (Value × Value)}
    (h : ∀ o ∈ options, o.1.anyWithin p = false ∧ o.2.anyWithin p = false) :
    anyAmongOptions p options = false := by
  rw [anyAmongOptions_eq_any, List.any_eq_false]
  intro o ho
  simp [h o ho]

end Within

/-- Nothing within a value with an encoding is as asked for if no such value is so itself,
and no name of an option. -/
theorem anyWithin_eq_false {ok : Json → Prop} {p : Value → Bool}
    (hown : ∀ v, IsEncodable ok v → p v = false)
    (hname : ∀ s, p (.data (.string s)) = false) {x : Value} (h : IsEncodable ok x) :
    x.anyWithin p = false := by
  have hx := hown x h
  induction h with
  | tuple elements_ok ih =>
      rw [anyWithin, hx, anyAmong_eq_false fun v hv => ih v hv (hown v (elements_ok v hv))]
      rfl
  | grammar fields_ok ih =>
      rw [anyWithin, hx, anyAmong_eq_false fun v hv => ih v hv (hown v (fields_ok v hv))]
      rfl
  | tokenSection tokens_ok name_ok ih =>
      rw [anyWithin, hx, anyAmong_eq_false fun v hv => ih v hv (hown v (tokens_ok v hv))]
      rfl
  | rulesField rules_ok name_ok ih =>
      rw [anyWithin, hx, anyAmong_eq_false fun v hv => ih v hv (hown v (rules_ok v hv))]
      rfl
  | ruleDef name_ok body_ok ih =>
      rw [anyWithin, hx, anyAmong_eq_false fun v hv => ih v hv (hown v (body_ok v hv))]
      rfl
  | choice branches_ok ih =>
      rw [anyWithin, hx, anyAmongBranches_eq_false fun branch hbranch v hv =>
        ih branch hbranch v hv (hown v (branches_ok branch hbranch v hv))]
      rfl
  | named inner_ok label_ok modifier_ok ih =>
      rw [anyWithin, hx, ih (hown _ inner_ok)]
      rfl
  | @tokenDef name options name_ok distinct options_ok ih =>
      rw [anyWithin, hx, anyAmongOptions_eq_false, Bool.or_false]
      intro o ho
      obtain ⟨o, hmem, rfl⟩ := List.mem_map.mp ho
      exact ⟨hname o.1, ih o hmem (hown _ (options_ok o hmem))⟩
  | _ => exact hx

/-- The options of a value with an encoding can be members of an object. -/
theorem hasTextKeys_of_isEncodable {ok : Json → Prop} {x : Value} (h : IsEncodable ok x) :
    x.hasTextKeys = true := by
  rw [hasTextKeys, Bool.not_eq_true']
  refine anyWithin_eq_false (fun v hv => ?_) (fun _ => rfl) h
  cases hv with
  | tokenDef name_ok distinct options_ok => simp [hasTextKeysItself, keyText?]
  | _ => rfl

/-! ## Equality of a value with itself -/

section Same

variable {ordered : Bool}

theorem sameAll_self {vs : List Value} (h : ∀ v ∈ vs, v.sameWith ordered v = true) :
    sameAll ordered vs vs = true :=
  sameAll_iff.mpr (List.forall₂_same.mpr h)

theorem sameBranches_self {branches : List (List Value)}
    (h : ∀ branch ∈ branches, ∀ v ∈ branch, v.sameWith ordered v = true) :
    sameBranches ordered branches branches = true :=
  sameBranches_iff.mpr (List.forall₂_same.mpr fun branch hbranch => sameAll_self (h branch hbranch))

/-- Options are equal to any that they are among. -/
theorem sameOptions_of_subset {as bs : List (Value × Value)} (hsub : as ⊆ bs)
    (h : ∀ o ∈ as, o.1.sameWith true o.1 = true ∧ o.2.sameWith ordered o.2 = true) :
    sameOptions ordered as bs = true :=
  sameOptions_iff.mpr fun o ho => ⟨o, hsub ho, h o ho⟩

end Same

/-- A value with an encoding is equal to itself. -/
theorem same_self_of_isEncodable {x : Value} (h : IsEncodable (IsData allowed) x) :
    x.same x = true := by
  rw [same]
  induction h with
  | tuple _ ih => rw [sameWith, sameAll_self ih]
  | grammar _ ih => rw [sameWith, sameAll_self ih]
  | tokenSection _ name_ok ih => rw [sameWith, sameAll_self ih, name_ok.same_self]; rfl
  | rulesField _ name_ok ih => rw [sameWith, sameAll_self ih, name_ok.same_self]; rfl
  | ruleDef name_ok _ ih => rw [sameWith, sameAll_self ih, name_ok.same_self]; rfl
  | choice _ ih => rw [sameWith, sameBranches_self ih]
  | named _ label_ok modifier_ok ih =>
      rw [sameWith, ih, label_ok.same_self, modifier_ok.same_self]
      rfl
  | @tokenDef name options name_ok distinct _ ih =>
      -- Options are compared in any order, so each is found among all of them.
      rw [sameWith, name_ok.same_self, sameOptions_of_subset (List.Subset.refl _)]
      · simp
      · intro o ho
        obtain ⟨o, hmem, rfl⟩ := List.mem_map.mp ho
        refine ⟨?_, ih o hmem⟩
        rw [sameWith, (@IsData.string allowed o.1).same_self]
  | number value_ok => rw [sameWith, value_ok.same_self]
  | regex pattern_ok flags_ok => rw [sameWith, pattern_ok.same_self, flags_ok.same_self]; rfl
  | otherField name_ok => rw [sameWith, name_ok.same_self]
  | string text_ok => rw [sameWith, text_ok.same_self]
  | identifier name_ok => rw [sameWith, name_ok.same_self]
  | boolean value_ok => rw [sameWith, value_ok.same_self]
  | ref name_ok => rw [sameWith, name_ok.same_self]

/-! ## The text of a value -/

/-- The text that a value with an encoding is dumped to, if its whole numbers are short
enough to be read, loads as the value. -/
theorem exists_dump_of_isEncodable {x : Value} (h : IsEncodable (IsData IsReadable) x) :
    ∃ text, x.dump = .ok text ∧ load text = .ok x := by
  obtain ⟨j, hencode, hdata, hdecode⟩ := exists_encodes_of_isEncodable h
  refine ⟨j.render, ?_, ?_⟩
  · rw [dump, hencode, ok_bind, if_pos (hasTextKeys_of_isEncodable h)]
    rfl
  · rw [load, parse_render (fun i hi => hi) hdata]
    simp only [hdecode]

/-- White space behind the text of a value does not matter. -/
theorem load_append_of_dump {x : Value} (h : IsEncodable (IsData IsReadable) x) {text : String}
    (hdump : x.dump = .ok text) {blanks : String} (hblanks : ∀ c ∈ blanks.toList, isSpace c) :
    load (text ++ blanks) = .ok x := by
  obtain ⟨j, hencode, hdata, hdecode⟩ := exists_encodes_of_isEncodable h
  rw [dump, hencode, ok_bind, if_pos (hasTextKeys_of_isEncodable h)] at hdump
  obtain rfl : j.render = text := Except.ok.inj hdump
  rw [load, parse_render_append (fun i hi => hi) hdata hblanks]
  simp only [hdecode]

end Value

end Rulebook
