import Mathlib
import Rulebook.Proofs.Language.Preservation

/-! # Lowering keeps every symbol of the rules

A rule of a grammar spells a row of symbols: its name, and then the names, texts, labels
and modifiers in its body, from left to right. They are the symbols of the tokens inside
the blocks of rules, in the same order: what a rule is made of is neither lost nor
doubled nor moved, however its groups dissolve.
-/

namespace Rulebook

open Document (Tokens)

/-- What a rule is made of. -/
inductive Symbol
  | name (name : String)
  | text (text : String)
  | modifier (modifier : String)
  /-- A token that has no place in a rule. -/
  | foreign (kind : TokenKind)
  /-- A value that has no place in a rule. -/
  | unreadable
  deriving Repr, DecidableEq

/-- The symbol of a token in a rule: the marks between symbols have none, the text of a
literal is without its quotes, and a suffix is a modifier. -/
def Token.symbols (t : Token TokenKind) : List Symbol :=
  match t.kind with
  | .colon | .semicolon | .equals | .bar | .openParen | .closeParen => []
  | .identifier => [.name t.lexeme]
  | .singleQuoted | .doubleQuoted => [.text (Tree.literalText t.lexeme)]
  | .question => [.modifier "optional"]
  | .star => [.modifier "many"]
  | .plus => [.modifier "many1"]
  | kind => [.foreign kind]

namespace Value

/-- The symbol of data that may be missing. -/
def dataSymbols (symbol : String → Symbol) : Json → List Symbol
  | .null => []
  | .string s => [symbol s]
  | _ => [.unreadable]

mutual

/-- The symbols of an element: a choice has those of its branches, and what is named has
its label, those of its value, and its modifier. -/
def symbols : Value → List Symbol
  | .ref (.string name) => [.name name]
  | .string (.string text) => [.text text]
  | .choice branches => branchSymbols branches
  | .tuple elements => sequenceSymbols elements
  | .named value label modifier =>
      dataSymbols .name label ++ value.symbols ++ dataSymbols .modifier modifier
  | _ => [.unreadable]

/-- The symbols of elements in a row. -/
def sequenceSymbols : List Value → List Symbol
  | [] => []
  | v :: rest => v.symbols ++ sequenceSymbols rest

/-- The symbols of branches in a row. -/
def branchSymbols : List (List Value) → List Symbol
  | [] => []
  | elements :: rest => sequenceSymbols elements ++ branchSymbols rest

end

/-- The symbols of a rule: its name and those of its body. -/
def ruleSymbols : Value → List Symbol
  | .ruleDef (.string name) body => .name name :: sequenceSymbols body
  | _ => [.unreadable]

theorem sequenceSymbols_append (vs ws : List Value) :
    sequenceSymbols (vs ++ ws) = sequenceSymbols vs ++ sequenceSymbols ws := by
  induction vs with
  | nil => rw [List.nil_append, sequenceSymbols, List.nil_append]
  | cons v rest ih =>
      rw [List.cons_append, sequenceSymbols, sequenceSymbols, ih, List.append_assoc]

theorem sequenceSymbols_singleton (v : Value) : sequenceSymbols [v] = v.symbols := by
  rw [sequenceSymbols, sequenceSymbols, List.append_nil]

theorem branchSymbols_eq_flatMap (branches : List (List Value)) :
    branchSymbols branches = branches.flatMap sequenceSymbols := by
  induction branches with
  | nil => rw [branchSymbols, List.flatMap_nil]
  | cons elements rest ih => rw [branchSymbols, List.flatMap_cons, ih]

theorem sequenceSymbols_splice {v : Value} (h : v.elements? = none) :
    sequenceSymbols (splice [v]) = v.symbols := by
  rw [splice, Sequence.splice, List.flatMap_singleton, h]
  exact sequenceSymbols_singleton v

/-- What a value dissolves into has the symbols of the value when it is closed. -/
theorem symbols_closeList (v : Value) :
    (Lowering.closeList v).symbols = sequenceSymbols (splice [v]) := by
  cases v with
  | list elements =>
      rw [Lowering.closeList, symbols, splice, Sequence.splice, List.flatMap_singleton]
      rfl
  | tuple elements =>
      rw [Lowering.closeList, symbols, splice, Sequence.splice, List.flatMap_singleton]
      · rfl
      · simp
  | _ => exact (sequenceSymbols_singleton _).symm

end Value

namespace Surface

open Value

/-- The symbol of a terminal. -/
theorem Terminal.symbols_eq {kind : TokenKind} (terminal : Terminal kind) :
    terminal.token.symbols = ({ terminal.token with kind } : Token TokenKind).symbols := by
  obtain ⟨token, rfl⟩ := terminal
  rfl

theorem symbols_labelData (label : Option Label) :
    dataSymbols .name (labelData label) = (labelTokens label).flatMap Token.symbols := by
  cases label with
  | none => rfl
  | some label =>
      rw [labelTokens, List.flatMap_cons, List.flatMap_singleton, label.name.symbols_eq,
        label.equals.symbols_eq]
      rfl

theorem symbols_modifierData (suffix : Option Suffix) :
    dataSymbols .modifier (modifierData suffix) = (suffixTokens suffix).flatMap Token.symbols := by
  rcases suffix with _ | mark | mark | mark
  · rfl
  all_goals
    rw [suffixTokens, Option.map_some, Option.toList_some, List.flatMap_singleton, Suffix.token,
      mark.symbols_eq]
    rfl

theorem symbols_marked (label : Option Label) (suffix : Option Suffix) (v : Value) :
    sequenceSymbols (splice [marked label suffix v]) =
      (labelTokens label).flatMap Token.symbols ++ sequenceSymbols (splice [v]) ++
        (suffixTokens suffix).flatMap Token.symbols := by
  unfold marked
  split
  · exact (List.append_nil _).symm
  · rw [sequenceSymbols_splice rfl, symbols, symbols_closeList, symbols_labelData,
      symbols_modifierData]

theorem symbols_groupValue (parts : List (List Value)) :
    sequenceSymbols (splice [groupValue parts]) = parts.flatMap sequenceSymbols := by
  unfold groupValue
  split
  · rw [splice, Sequence.splice, List.flatMap_singleton, List.flatMap_singleton]
    rfl
  · rw [sequenceSymbols_splice rfl, symbols, branchSymbols_eq_flatMap]

/-! ## Elements of groups -/

theorem Element.before_ne_nil (e : Element) {parts : List (List Value)} (h : parts ≠ []) :
    e.before parts ≠ [] := by
  obtain ⟨part, more, rfl⟩ := List.exists_cons_of_ne_nil h
  cases e <;> (rw [Element.before]; exact List.cons_ne_nil _ _)

theorem elementParts_ne_nil (es : List Element) : elementParts es ≠ [] := by
  induction es with
  | nil =>
      rw [elementParts]
      exact List.cons_ne_nil _ _
  | cons e rest ih =>
      rw [elementParts]
      exact e.before_ne_nil ih

-- An item that gives a list dissolves in the sequence around it, so what is compared
-- are the symbols of the spliced value. A part in front of which an item goes exists.
mutual

theorem Item.symbols_value (i : Item) :
    sequenceSymbols (splice [i.value]) = i.tokens.flatMap Token.symbols := by
  cases i with
  | mk label scalar suffix =>
      rw [Item.value, symbols_marked, scalar.symbols_value, Item.tokens, List.flatMap_append,
        List.flatMap_append]

theorem Scalar.symbols_value (d : Scalar) :
    sequenceSymbols (splice [d.value]) = d.tokens.flatMap Token.symbols := by
  cases d with
  | singleQuoted literal | doubleQuoted literal =>
      rw [Scalar.value, sequenceSymbols_splice rfl, symbols, Scalar.tokens, List.flatMap_singleton,
        literal.symbols_eq]
      rfl
  | name name =>
      rw [Scalar.value, sequenceSymbols_splice rfl, symbols, Scalar.tokens, List.flatMap_singleton,
        name.symbols_eq]
      rfl
  | group opening first more closing =>
      rw [Scalar.value, symbols_groupValue, first.symbols_before (elementParts_ne_nil more),
        symbols_elementParts more, Scalar.tokens, List.flatMap_append, List.flatMap_cons,
        List.flatMap_append, List.flatMap_singleton, opening.symbols_eq, closing.symbols_eq]
      exact (List.append_nil _).symm

/-- An element of a group puts its symbols in front of those of the parts behind it. -/
theorem Element.symbols_before (e : Element) {parts : List (List Value)} (h : parts ≠ []) :
    (e.before parts).flatMap sequenceSymbols =
      e.tokens.flatMap Token.symbols ++ parts.flatMap sequenceSymbols := by
  cases e with
  | bar bar =>
      rw [Element.before, List.flatMap_cons, Element.tokens, List.flatMap_singleton, bar.symbols_eq,
        sequenceSymbols]
      rfl
  | item i =>
      obtain ⟨part, more, rfl⟩ := List.exists_cons_of_ne_nil h
      rw [Element.before, List.modifyHead_cons, List.flatMap_cons, sequenceSymbols_append,
        i.symbols_value, List.append_assoc, Element.tokens, List.flatMap_cons]

theorem symbols_elementParts (es : List Element) :
    (elementParts es).flatMap sequenceSymbols = (elementTokens es).flatMap Token.symbols := by
  cases es with
  | nil =>
      rw [elementParts, elementTokens, List.flatMap_singleton, sequenceSymbols, List.flatMap_nil]
  | cons e rest =>
      rw [elementParts, e.symbols_before (elementParts_ne_nil rest), symbols_elementParts rest,
        elementTokens, List.flatMap_append]

end

/-! ## Rules -/

theorem symbols_sequenceValues (items : Surface.Sequence) :
    sequenceSymbols (sequenceValues items) = (sequenceTokens items).flatMap Token.symbols := by
  induction items with
  | nil => rfl
  | cons item rest ih =>
      rw [sequenceValues_cons, sequenceSymbols_append, item.symbols_value, ih, sequenceTokens,
        sequenceTokens, List.flatMap_cons, List.flatMap_append]

theorem symbols_alternatives (alternatives : List Alternative) :
    (alternatives.map fun a => sequenceValues a.sequence).flatMap sequenceSymbols =
      (alternatives.flatMap Alternative.tokens).flatMap Token.symbols := by
  rw [List.flatMap_map, List.flatMap_assoc]
  refine List.flatMap_congr fun a _ => ?_
  rw [Alternative.tokens, List.flatMap_cons, a.bar.symbols_eq]
  exact symbols_sequenceValues a.sequence

/-- A leading sequence that is empty is left out, and it has no symbols. -/
theorem symbols_branches (r : Rule) :
    (r.branches.map sequenceValues).flatMap sequenceSymbols =
      (sequenceTokens r.lead).flatMap Token.symbols ++
        (r.alternatives.flatMap Alternative.tokens).flatMap Token.symbols := by
  have hlead : ((if r.lead.isEmpty then [] else [r.lead]).map sequenceValues).flatMap
      sequenceSymbols = (sequenceTokens r.lead).flatMap Token.symbols := by
    split
    · next hempty =>
        rw [List.isEmpty_iff.mp hempty]
        rfl
    · rw [List.map_singleton, List.flatMap_singleton, symbols_sequenceValues]
  rw [Rule.branches, List.map_append, List.flatMap_append, hlead, List.map_map]
  exact congrArg _ (symbols_alternatives r.alternatives)

theorem Rule.symbols_body (r : Rule) : sequenceSymbols r.body =
    (sequenceTokens r.lead).flatMap Token.symbols ++
      (r.alternatives.flatMap Alternative.tokens).flatMap Token.symbols := by
  rw [Rule.body]
  split
  · next hempty =>
      rw [List.isEmpty_iff.mp hempty, symbols_sequenceValues, List.flatMap_nil, List.flatMap_nil,
        List.append_nil]
  · rw [sequenceSymbols_singleton, symbols, branchSymbols_eq_flatMap, symbols_branches]

/-- A rule has the symbols of its tokens. -/
theorem Rule.symbols_value (r : Rule) :
    ruleSymbols r.value = r.tokens.flatMap Token.symbols := by
  rw [Rule.value, ruleSymbols, r.symbols_body, Rule.tokens, List.flatMap_cons, List.flatMap_cons,
    List.flatMap_append, List.flatMap_append, List.flatMap_singleton, r.name.symbols_eq,
    r.colon.symbols_eq, r.semicolon.symbols_eq]
  exact congrArg _ (List.append_nil _).symm

/-- The rules of a document have the symbols of the tokens inside its blocks of rules. -/
theorem Derivation.symbols_rules (d : Derivation) :
    (Value.rules (d.map Field.value)).flatMap ruleSymbols =
      (blockTokens d.tokens).flatMap Token.symbols := by
  rw [d.rules_value, d.blockTokens_tokens, List.flatMap_map, List.flatMap_assoc]
  exact List.flatMap_congr fun r _ => r.symbols_value

end Surface

/-- The rules of a grammar that is lowered from a text spell the symbols of the tokens
inside the blocks of rules of the text, each once and in order. -/
theorem Lowering.lower_conserves_symbols {text : String} {t : Tree}
    (h : Document.parse text = .ok t) :
    ∃ scan fields, Scan.ofChars text.toList = .ok scan ∧ lower t = .ok (.grammar fields) ∧
      (Value.rules fields).flatMap Value.ruleSymbols =
        (blockTokens scan.tokens).flatMap Token.symbols := by
  obtain ⟨scan, d, hscan, htokens, rfl⟩ := Surface.exists_derivation_of_parse h
  have hnumbers : NumbersRead d.tokens := by
    rw [htokens]
    exact numbersRead_scan hscan
  refine ⟨scan, d.map Surface.Field.value, hscan, lower_tree hnumbers, ?_⟩
  rw [d.symbols_rules, htokens]

/-- Two blocks of rules with a label, suffixes and nested groups, behind a setting that
names `rules` as well. -/
theorem Lowering.lower_conserves_nestedGroups :
    ∃ t scan fields,
      Document.parse "k: rules rules \x7b r: | x=((a)? |)+ 'b'*; \x7d rules \x7b s: (c); \x7d" = .ok t ∧
      Scan.ofChars "k: rules rules \x7b r: | x=((a)? |)+ 'b'*; \x7d rules \x7b s: (c); \x7d".toList = .ok scan ∧
      lower t = .ok (.grammar fields) ∧
      (Value.rules fields).flatMap Value.ruleSymbols =
        (blockTokens scan.tokens).flatMap Token.symbols ∧
      (Value.rules fields).flatMap Value.ruleSymbols =
        [.name "r", .name "x", .name "a", .modifier "optional", .modifier "many1", .text "b",
          .modifier "many", .name "s", .name "c"] := by
  have hparse : (Document.parse
      "k: rules rules \x7b r: | x=((a)? |)+ 'b'*; \x7d rules \x7b s: (c); \x7d").isOk := by
    cbv
  have hsymbols : (Scan.ofChars
      "k: rules rules \x7b r: | x=((a)? |)+ 'b'*; \x7d rules \x7b s: (c); \x7d".toList).map
        (fun scan => (blockTokens scan.tokens).flatMap Token.symbols) =
      .ok [.name "r", .name "x", .name "a", .modifier "optional", .modifier "many1", .text "b",
          .modifier "many", .name "s", .name "c"] := by
    cbv
  obtain ⟨t, ht⟩ := exists_of_isOk hparse
  obtain ⟨scan, fields, hscan, hlower, hsame⟩ := lower_conserves_symbols ht
  obtain ⟨scan', hscan', hlist⟩ := exists_of_map_eq_ok hsymbols
  obtain rfl := Except.ok.inj (hscan.symm.trans hscan')
  exact ⟨t, scan, fields, ht, hscan, hlower, hsame, hsame.trans hlist⟩

end Rulebook
