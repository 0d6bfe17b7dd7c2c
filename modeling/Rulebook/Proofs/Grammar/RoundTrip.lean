import Rulebook.Proofs.Grammar.Encodable

/-! # Encoding and decoding grammars

Every well-typed value of a grammar is encoded as data that decodes to the value
itself, and it is loaded again from the text that it is dumped to.
-/

namespace Rulebook

open Json

/-- Text that may be missing, as data. -/
def IsOptionalText (j : Json) : Prop := j = .null ∨ ∃ s, j = .string s

/-- A well-typed value of a grammar, or a tuple of them: names and texts are text,
the names of options are distinct texts, and a number is whole and allowed or
one of the double format. -/
inductive IsAst (allowed : Int → Prop) : Value → Prop
  | tuple {elements : List Value} (ok : ∀ v ∈ elements, IsAst allowed v) :
      IsAst allowed (.tuple elements)
  | grammar {fields : List Value} (ok : ∀ v ∈ fields, IsAst allowed v) :
      IsAst allowed (.grammar fields)
  | tokenSection {tokens : List Value} (ok : ∀ v ∈ tokens, IsAst allowed v) (name : String) :
      IsAst allowed (.tokenSection tokens (.string name))
  | otherField (name : String) : IsAst allowed (.otherField (.string name))
  | rulesField {rules : List Value} (ok : ∀ v ∈ rules, IsAst allowed v) (name : String) :
      IsAst allowed (.rulesField rules (.string name))
  | tokenDef (name : String) {options : List (String × Value)}
      (distinct : (options.map Prod.fst).Nodup) (ok : ∀ o ∈ options, IsAst allowed o.2) :
      IsAst allowed (.tokenDef (.string name) (options.map fun o => (.data (.string o.1), o.2)))
  | ruleDef (name : String) {body : List Value} (ok : ∀ v ∈ body, IsAst allowed v) :
      IsAst allowed (.ruleDef (.string name) body)
  | whole {i : Int} (ok : allowed i) : IsAst allowed (.number (.int i))
  | float {x : Double} (ok : x.IsNumber) : IsAst allowed (.number (.float x))
  | regex (pattern flags : String) : IsAst allowed (.regex (.string pattern) (.string flags))
  | string (text : String) : IsAst allowed (.string (.string text))
  | identifier (name : String) : IsAst allowed (.identifier (.string name))
  | boolean (b : Bool) : IsAst allowed (.boolean (.bool b))
  | ref (name : String) : IsAst allowed (.ref (.string name))
  | choice {branches : List (List Value)} (ok : ∀ branch ∈ branches, ∀ v ∈ branch, IsAst allowed v) :
      IsAst allowed (.choice branches)
  | named {value : Value} {label modifier : Json} (ok : IsAst allowed value)
      (label_ok : IsOptionalText label) (modifier_ok : IsOptionalText modifier) :
      IsAst allowed (.named value label modifier)

/-- A well-typed value has an encoding, and all data in it can be a key. -/
theorem IsAst.isEncodable {allowed : Int → Prop} {x : Value} (h : IsAst allowed x) :
    IsEncodable (fun j => IsData allowed j ∧ j.isKey = true) x := by
  have hstring : ∀ s, IsData allowed (.string s) ∧ (Json.string s).isKey = true :=
    fun s => ⟨.string s, rfl⟩
  have hoptional : ∀ j, IsOptionalText j → IsData allowed j ∧ j.isKey = true := by
    rintro j (rfl | ⟨s, rfl⟩)
    · exact ⟨.null, rfl⟩
    · exact hstring s
  induction h with
  | tuple ok ih => exact .tuple ih
  | grammar ok ih => exact .grammar ih
  | tokenSection ok name ih => exact .tokenSection ih (hstring name)
  | otherField name => exact .otherField (hstring name)
  | rulesField ok name ih => exact .rulesField ih (hstring name)
  | tokenDef name distinct ok ih => exact .tokenDef (hstring name) distinct ih
  | ruleDef name ok ih => exact .ruleDef (hstring name) ih
  | whole ok => exact .number ⟨.int ok, rfl⟩
  | float ok => exact .number ⟨.float ok, rfl⟩
  | regex pattern flags => exact .regex (hstring pattern) (hstring flags)
  | string text => exact .string (hstring text)
  | identifier name => exact .identifier (hstring name)
  | boolean b => exact .boolean ⟨.bool b, rfl⟩
  | ref name => exact .ref (hstring name)
  | choice ok ih => exact .choice ih
  | named ok label_ok modifier_ok ih =>
      exact .named ih (hoptional _ label_ok) (hoptional _ modifier_ok)

namespace Value

variable {allowed : Int → Prop}

theorem isEncodable_of_isAst {x : Value} (h : IsAst allowed x) : IsEncodable (IsData allowed) x :=
  h.isEncodable.mono fun _ hj => hj.1

/-- Every well-typed value is encoded as data that decodes to it. -/
theorem exists_encodes {x : Value} (h : IsAst allowed x) : ∃ j, Encodes allowed x j :=
  exists_encodes_of_isEncodable (isEncodable_of_isAst h)

/-- A well-typed value is equal to itself. -/
theorem same_self {x : Value} (h : IsAst allowed x) : x.same x = true :=
  same_self_of_isEncodable (isEncodable_of_isAst h)

/-- The text that a well-typed value is dumped to, if its whole numbers are short
enough to be read, loads as the value. -/
theorem exists_dump {x : Value} (h : IsAst IsReadable x) :
    ∃ text, x.dump = .ok text ∧ load text = .ok x :=
  exists_dump_of_isEncodable (isEncodable_of_isAst h)

/-! ## The round trip -/

/-- A well-typed value with whole numbers of any size is the decoding of its
encoding. If all of them are short enough to be read, the value is dumped, and
it is loaded again from the text. -/
theorem decode_encode_and_load_dump (x : Value) :
    (IsAst (fun _ => True) x →
      ∃ j, x.encode = .ok j ∧ decode j = .ok x ∧ x.same x = true) ∧
    (IsAst IsReadable x →
      ∃ text, x.dump = .ok text ∧ load text = .ok x ∧ x.same x = true) := by
  refine ⟨fun h => ?_, fun h => ?_⟩
  · obtain ⟨j, hencode, hdata, hdecode⟩ := exists_encodes h
    exact ⟨j, hencode, hdecode, same_self h⟩
  · obtain ⟨text, hdump, hload⟩ := exists_dump h
    exact ⟨text, hdump, hload, same_self h⟩

/-- A token with an option that is called like the name of a type, and a rule
with a choice that has an empty branch and a labeled sequence. -/
def mixedGrammar : Value :=
  .grammar [
    .tokenSection
      [.tokenDef (.string "NUMBER")
        [(.data (.string "type"), .number (.int (-7))),
          (.data (.string "\"\\\n"), .number (.float (.finite false 0x18000000000000 (-52))))]]
      (.string "tokens"),
    .rulesField
      [.ruleDef (.string "start")
        [.choice [[], [.named (.tuple [.ref (.string "NUMBER"), .string (.string "+")])
          (.string "sum") .null]]]]
      (.string "rules")]

theorem load_dump_mixedGrammar :
    IsAst (fun _ => True) mixedGrammar ∧ IsAst IsReadable mixedGrammar ∧
      (∃ j, mixedGrammar.encode = .ok j ∧ decode j = .ok mixedGrammar ∧
        mixedGrammar.same mixedGrammar = true) ∧
      ∃ text, mixedGrammar.dump = .ok text ∧ load text = .ok mixedGrammar ∧
        mixedGrammar.same mixedGrammar = true := by
  have hast : ∀ allowed : Int → Prop, allowed (-7) → IsAst allowed mixedGrammar := by
    intro allowed hseven
    have hfloat : (Double.finite false 0x18000000000000 (-52)).IsNumber :=
      ⟨by decide, by decide, by decide, fun _ => by decide⟩
    have htoken := @IsAst.tokenDef allowed "NUMBER"
      [("type", .number (.int (-7))),
        ("\"\\\n", .number (.float (.finite false 0x18000000000000 (-52))))]
      (by decide) (by simpa using ⟨.whole hseven, .float hfloat⟩)
    have hsequence : IsAst allowed (.tuple [.ref (.string "NUMBER"), .string (.string "+")]) :=
      .tuple (by simpa using ⟨.ref "NUMBER", .string "+"⟩)
    have hchoice := @IsAst.choice allowed [[], [_]]
      (by simpa using .named hsequence (.inr ⟨"sum", rfl⟩) (.inl rfl))
    have htokens := @IsAst.tokenSection allowed [_] (by simpa using htoken) "tokens"
    have hrule := @IsAst.ruleDef allowed "start" [_] (by simpa using hchoice)
    have hrules := @IsAst.rulesField allowed [_] (by simpa using hrule) "rules"
    exact .grammar (by simpa using ⟨htokens, hrules⟩)
  have hany := hast (fun _ => True) trivial
  have hreadable := hast IsReadable (by unfold IsReadable; decide)
  exact ⟨hany, hreadable, (decode_encode_and_load_dump mixedGrammar).1 hany,
    (decode_encode_and_load_dump mixedGrammar).2 hreadable⟩

end Value

end Rulebook
