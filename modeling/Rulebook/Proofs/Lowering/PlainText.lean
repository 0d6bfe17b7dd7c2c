import Rulebook.Proofs.Json.Grammar
import Rulebook.Proofs.Lowering.Spelling
import Rulebook.Proofs.Lowering.Typed

/-! # Texts of lowered grammars

The grammar of every text is dumped, and what it is dumped to is a JSON text exactly if all
its numbers are finite. Not all are: digits beyond the range of the double format read as an
infinity, which is written under a name.
-/

namespace Rulebook

open Json

namespace Value

/-- Whether a value carries data with a number that is not finite. -/
def carriesUnbounded (v : Value) : Bool := v.ownData.any (!·.isFinite)

/-- Whether all numbers within a value are finite. -/
def isFinite (v : Value) : Bool := !v.anyWithin carriesUnbounded

/-- The numbers of an encoding are finite if and only if those of the value are. -/
def EncodesFinite (v : Value) : Prop :=
  ∀ {j : Json}, v.encode = .ok j → j.isFinite = !v.anyWithin carriesUnbounded

theorem areFinite_of_encodeAll {vs : List Value} (h : ∀ v ∈ vs, EncodesFinite v) {js : List Json}
    (hjs : encodeAll vs = .ok js) : areFinite js = !anyAmong carriesUnbounded vs := by
  induction vs generalizing js with
  | nil =>
      cases hjs
      rw [areFinite, anyAmong, Bool.not_false]
  | cons v rest ih =>
      obtain ⟨hv, hrest⟩ := List.forall_mem_cons.mp h
      rw [encodeAll] at hjs
      obtain ⟨j, hj, hjs⟩ := bind_eq_ok.mp hjs
      obtain ⟨more, hmore, hjs⟩ := bind_eq_ok.mp hjs
      cases hjs
      rw [areFinite, anyAmong, hv hj, ih hrest hmore, Bool.not_or]

theorem areFinite_of_encodeBranches {branches : List (List Value)}
    (h : ∀ branch ∈ branches, ∀ v ∈ branch, EncodesFinite v) {js : List Json}
    (hjs : encodeBranches branches = .ok js) :
    areFinite js = !anyAmongBranches carriesUnbounded branches := by
  induction branches generalizing js with
  | nil =>
      cases hjs
      rw [areFinite, anyAmongBranches, Bool.not_false]
  | cons branch rest ih =>
      obtain ⟨hbranch, hrest⟩ := List.forall_mem_cons.mp h
      rw [encodeBranches] at hjs
      obtain ⟨first, hfirst, hjs⟩ := bind_eq_ok.mp hjs
      obtain ⟨more, hmore, hjs⟩ := bind_eq_ok.mp hjs
      cases hjs
      rw [areFinite, anyAmongBranches, Json.isFinite, areFinite_of_encodeAll hbranch hfirst,
        ih hrest hmore, Bool.not_or]

theorem haveFinite_of_encodeOptions {named : List (String × Value)}
    (h : ∀ o ∈ named, EncodesFinite o.2) {members : List (String × Json)}
    (hmembers : encodeOptions (textOptions named) = .ok members) :
    haveFinite members = !anyAmongOptions carriesUnbounded (textOptions named) := by
  induction named generalizing members with
  | nil =>
      cases hmembers
      rw [haveFinite]
      rfl
  | cons o rest ih =>
      obtain ⟨ho, hrest⟩ := List.forall_mem_cons.mp h
      rw [textOptions, List.map_cons, encodeOptions] at hmembers
      obtain ⟨j, hj, hmembers⟩ := bind_eq_ok.mp hmembers
      obtain ⟨more, hmore, hmembers⟩ := bind_eq_ok.mp hmembers
      cases hmembers
      have hname : (Value.data (.string o.1)).anyWithin carriesUnbounded = false := rfl
      rw [haveFinite, textOptions, List.map_cons, anyAmongOptions, hname, Bool.false_or, ho hj,
        ih hrest hmore, Bool.not_or]

/-- The encoding of a value keeps its numbers. -/
theorem encodesFinite {ok : Json → Prop} {v : Value} (h : IsEncodable ok v) : EncodesFinite v := by
  intro j hj
  induction h generalizing j with
  | tuple _ ih =>
      rw [encode] at hj
      obtain ⟨js, hjs, hj⟩ := bind_eq_ok.mp hj
      cases hj
      rw [Json.isFinite, areFinite_of_encodeAll (fun v hv _ => ih v hv) hjs]
      simp [anyWithin, carriesUnbounded, ownData]
  | grammar _ ih =>
      rw [encode] at hj
      obtain ⟨js, hjs, hj⟩ := bind_eq_ok.mp hj
      cases hj
      have hall := areFinite_of_encodeAll (fun v hv _ => ih v hv) hjs
      simp [tagged, Json.isFinite, haveFinite, anyWithin, carriesUnbounded, ownData, hall]
  | tokenSection _ name_ok ih | rulesField _ name_ok ih | ruleDef name_ok _ ih =>
      rw [encode] at hj
      obtain ⟨js, hjs, hj⟩ := bind_eq_ok.mp hj
      cases hj
      have hall := areFinite_of_encodeAll (fun v hv _ => ih v hv) hjs
      simp [tagged, Json.isFinite, haveFinite, anyWithin, carriesUnbounded, ownData, hall]
  | @tokenDef name named name_ok distinct _ ih =>
      rw [encode] at hj
      obtain ⟨members, hmembers, hj⟩ := bind_eq_ok.mp hj
      cases hj
      have hall := haveFinite_of_encodeOptions (fun o ho _ => ih o ho) hmembers
      simp [tagged, Json.isFinite, haveFinite, anyWithin, carriesUnbounded, ownData, hall]
  | choice _ ih =>
      rw [encode] at hj
      obtain ⟨js, hjs, hj⟩ := bind_eq_ok.mp hj
      cases hj
      have hall := areFinite_of_encodeBranches (fun branch hbranch v hv _ => ih branch hbranch v hv) hjs
      simp [tagged, Json.isFinite, haveFinite, anyWithin, carriesUnbounded, ownData, hall]
  | named _ label_ok modifier_ok ih =>
      rw [encode] at hj
      obtain ⟨inner, hinner, hj⟩ := bind_eq_ok.mp hj
      cases hj
      simp [tagged, Json.isFinite, haveFinite, anyWithin, carriesUnbounded, ownData, ih hinner,
        Bool.and_assoc]
  | otherField | number | regex | string | identifier | boolean | ref =>
      rw [encode] at hj
      cases hj
      simp [tagged, Json.isFinite, haveFinite, anyWithin, carriesUnbounded, ownData]

/-- A value with an encoding is dumped to a JSON text exactly if all its numbers are finite. -/
theorem isText_dump_iff {v : Value} (h : IsEncodable (IsData IsReadable) v) :
    ∃ text, v.dump = .ok text ∧ (IsText text.toList ↔ v.isFinite = true) := by
  obtain ⟨j, hencode, hdata, -⟩ := exists_encodes_of_isEncodable h
  refine ⟨j.render, ?_, ?_⟩
  · rw [dump, hencode, ok_bind, if_pos (hasTextKeys_of_isEncodable h)]
    rfl
  · rw [isText_render_iff hdata, encodesFinite h hencode, isFinite]

end Value

/-- The grammar of every text is dumped, and what it is dumped to is a JSON text exactly if
all numbers in the grammar are finite. -/
theorem dump_isText_iff_isFinite {source : String} {v : Value} (h : lowerText source = .ok v) :
    ∃ text, v.dump = .ok text ∧ (IsText text.toList ↔ v.isFinite = true) :=
  Value.isText_dump_iff (Value.isEncodable_of_isAst (isAst_of_lowerText h))

/-- A text with quotes, an escape and a number with sign and point. -/
theorem dump_isText_escapes :
    ∃ v text, lowerText "tokens \x7b T: \x7b a: -0.5, b: '\\n\"' \x7d \x7d" = .ok v ∧
      v.dump = .ok text ∧ (IsText text.toList ↔ v.isFinite = true) := by
  have hparse : (Document.parse
      "tokens \x7b T: \x7b a: -0.5, b: '\\n\"' \x7d \x7d").isOk := by cbv
  obtain ⟨t, ht⟩ := exists_of_isOk hparse
  obtain ⟨v, hlower, -⟩ := Lowering.lower_isAst ht
  have hv : lowerText "tokens \x7b T: \x7b a: -0.5, b: '\\n\"' \x7d \x7d" = .ok v := by
    simp only [lowerText, ht, hlower]
  obtain ⟨text, hdump, htext⟩ := dump_isText_iff_isFinite hv
  exact ⟨v, text, hv, hdump, htext⟩

/-! ## Numbers out of range -/

namespace Value

/-- The grammar of a token with one option. -/
def oneOption (value : Value) : Value :=
  .grammar [.tokenSection
    [.tokenDef (.string "T") [(.data (.string "a"), value)]] (.string "tokens")]

/-- The lexemes of a token with one option that is a number. -/
def numberLexemes (number : String) : List (TokenKind × String) :=
  [(.identifier, "tokens"), (.openBrace, "\x7b"), (.identifier, "T"), (.colon, ":"),
    (.openBrace, "\x7b"), (.identifier, "a"), (.colon, ":"), (.number, number),
    (.closeBrace, "\x7d"), (.closeBrace, "\x7d")]

/-- The text of a token with one option that is a number. -/
def numberText (number : String) : String := String.ofList (linesOf (numberLexemes number))

end Value

namespace Surface

/-- The tokens of one option that is a number derive a grammar with its value. -/
theorem exists_derivation_number {number : String} {n : Json}
    (hn : Lowering.numberValue? number = some n) {tokens : List (Token TokenKind)}
    (h : Spelled tokens (Value.numberLexemes number)) :
    ∃ d : Derivation, d.tokens = tokens ∧ d.value = Value.oneOption (.number n) := by
  obtain ⟨section_, tokens, rfl, hsection, h⟩ := spelled_cons.mp h
  obtain ⟨opening, tokens, rfl, -, h⟩ := spelled_cons.mp h
  obtain ⟨name, tokens, rfl, hname, h⟩ := spelled_cons.mp h
  obtain ⟨colon, tokens, rfl, -, h⟩ := spelled_cons.mp h
  obtain ⟨inner, tokens, rfl, -, h⟩ := spelled_cons.mp h
  obtain ⟨option, tokens, rfl, hoption, h⟩ := spelled_cons.mp h
  obtain ⟨sign, tokens, rfl, -, h⟩ := spelled_cons.mp h
  obtain ⟨value, tokens, rfl, hvalue, h⟩ := spelled_cons.mp h
  obtain ⟨innerClosing, tokens, rfl, -, h⟩ := spelled_cons.mp h
  obtain ⟨closing, rfl, -⟩ := spelled_singleton.mp h
  refine ⟨[.declarations section_ (by simp [hsection]) opening
    [⟨⟨name, colon, inner, .some ⟨option, sign, .number value⟩ [] none, innerClosing⟩, none⟩]
    closing], ?_, ?_⟩
  · simp [Derivation.tokens, Field.tokens, Declared.tokens, Declaration.tokens, OptionList.tokens,
      OptionEntry.tokens, OptionValue.token, optionalToken]
  · simp [Derivation.value, Field.value, namedFieldValue, Declaration.value, OptionList.entries,
      putEntry, Value.putOption, OptionValue.value, Value.oneOption, hsection, hname, hoption,
      hvalue, hn]

end Surface

/-- The text of one option that is a number is lowered to this option. -/
theorem lowerText_numberText {number : String} (hlexeme : IsLexeme .number number) {n : Json}
    (hn : Lowering.numberValue? number = some n) :
    lowerText (Value.numberText number) = .ok (Value.oneOption (.number n)) := by
  have hlexemes : AreLexemes (Value.numberLexemes number) :=
    .cons (by decide) (by simp) (.cons (by decide) (by simp) (.cons (by decide) (by simp)
      (.cons (by decide) (by simp) (.cons (by decide) (by simp) (.cons (by decide) (by simp)
        (.cons (by decide) (by simp) (.cons hlexeme (by simp) (.cons (by decide) (by simp)
          (.cons (by decide) (by simp) .nil)))))))))
  exact lowerText_linesOf hlexemes fun _ h => Surface.exists_derivation_number hn h

/-- Two followed by 308 zeros and a fraction. -/
def beyondRange : List Char := '2' :: (List.replicate 308 '0' ++ ['.', '0'])

theorem isLexeme_beyondRange : IsLexeme .number (String.ofList beyondRange) := by
  rw [IsLexeme, String.toList_ofList]
  have hfirst : Piece.first? beyondRange = some ⟨.token .number, beyondRange, []⟩ := by
    decide +kernel
  exact hfirst

theorem numberValue?_beyondRange :
    Lowering.numberValue? (String.ofList beyondRange) = some (.float (.infinity false)) := by
  have hinteger : Numeral.integer? beyondRange = none := by decide +kernel
  have hdouble : Numeral.double? beyondRange = some (.infinity false) := by decide +kernel
  rw [Lowering.numberValue?, String.toList_ofList, hinteger, hdouble]
  rfl

/-- A number beyond the range of the format makes a dump that is no JSON text. -/
theorem dump_not_isText_beyondRange :
    ∃ v text, lowerText (Value.numberText (String.ofList beyondRange)) = .ok v ∧
      v.dump = .ok text ∧ ¬ IsText text.toList := by
  have hlower := lowerText_numberText isLexeme_beyondRange numberValue?_beyondRange
  obtain ⟨text, hdump, htext⟩ :=
    Value.isText_dump_iff (Value.isEncodable_of_isAst (isAst_of_lowerText hlower))
  refine ⟨_, text, hlower, hdump, ?_⟩
  rw [htext]
  decide

end Rulebook
