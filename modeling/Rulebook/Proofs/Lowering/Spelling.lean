import Rulebook.Proofs.Lowering.Conservation
import Rulebook.Proofs.Token.Lexemes

/-! # Spelling out a rule

Every well-formed body is the body of some rule in a text: the lexemes for it are read
off the body, and stand on a line each. A choice is spelled in parentheses, and so is
the tuple under a label or modifier; a choice with a single branch, which only stands
alone in a body, is spelled with a bar in front.
-/

namespace Rulebook

open Document (Tokens)

/-- A kind of token with a lexeme. -/
abbrev Lexeme := TokenKind × String

namespace Value

/-! ## The lexemes of a body -/

/-- A text between two quotes. -/
def quoted (quote : Char) (text : String) : String :=
  String.ofList (quote :: text.toList ++ [quote])

/-- The literal for a text: with single quotes where these make a lexeme. -/
def literalLexeme (text : String) : Lexeme :=
  if IsLexeme .singleQuoted (quoted '\'' text) then (.singleQuoted, quoted '\'' text)
  else (.doubleQuoted, quoted '"' text)

/-- A label with its sign. -/
def labelLexemes : Json → List Lexeme
  | .string name => [(.identifier, name), (.equals, "=")]
  | _ => []

/-- The suffix for a modifier. -/
def modifierLexemes : Json → List Lexeme
  | .string "optional" => [(.question, "?")]
  | .string "many" => [(.star, "*")]
  | .string "many1" => [(.plus, "+")]
  | _ => []

mutual

/-- The lexemes that spell a value. -/
def lexemes : Value → List Lexeme
  | .ref (.string name) => [(.identifier, name)]
  | .string (.string text) => [literalLexeme text]
  | .choice (first :: more) =>
      (.openParen, "(") :: (sequenceLexemes first ++ branchLexemes more ++ [(.closeParen, ")")])
  | .tuple elements => (.openParen, "(") :: (sequenceLexemes elements ++ [(.closeParen, ")")])
  | .named value label modifier =>
      labelLexemes label ++ value.lexemes ++ modifierLexemes modifier
  | _ => []

/-- The lexemes that spell elements in a row. -/
def sequenceLexemes : List Value → List Lexeme
  | [] => []
  | v :: rest => v.lexemes ++ sequenceLexemes rest

/-- The lexemes that spell branches, each behind a bar. -/
def branchLexemes : List (List Value) → List Lexeme
  | [] => []
  | elements :: rest => (.bar, "|") :: (sequenceLexemes elements ++ branchLexemes rest)

end

/-- The lexemes that spell the body of a rule. -/
def bodyLexemes : List Value → List Lexeme
  | [.choice [elements]] => branchLexemes [elements]
  | body => sequenceLexemes body

/-- A body of elements is spelled as a sequence: a choice with a single branch is no
element. -/
theorem bodyLexemes_of_elements {body : List Value} (flat : ∀ v ∈ body, IsElement v) :
    bodyLexemes body = sequenceLexemes body := by
  unfold bodyLexemes
  split
  · next elements =>
      cases flat _ List.mem_cons_self with
      | choice several => simp at several
  · rfl

/-- The lexemes that spell a rule. -/
def ruleLexemes (name : String) (body : List Value) : List Lexeme :=
  (.identifier, name) :: (.colon, ":") :: (bodyLexemes body ++ [(.semicolon, ";")])

/-- The lexemes of a document with a single rule. -/
def documentLexemes (name : String) (body : List Value) : List Lexeme :=
  (.identifier, "rules") :: (.openBrace, "\x7b") ::
    (ruleLexemes name body ++ [(.closeBrace, "\x7d")])

/-- The text of a document with a single rule. -/
def documentText (name : String) (body : List Value) : String :=
  String.ofList (linesOf (documentLexemes name body))

end Value

namespace Surface

/-! ## Deriving the tokens of a body -/

/-- Tokens with given kinds and lexemes. -/
def Spelled (tokens : Tokens) (lexemes : List Lexeme) : Prop :=
  tokens.map (fun t => (t.kind, t.lexeme)) = lexemes

variable {tokens : Tokens}

theorem spelled_nil : Spelled tokens [] ↔ tokens = [] := List.map_eq_nil_iff

theorem spelled_append {front back : List Lexeme} : Spelled tokens (front ++ back) ↔
    ∃ before after, tokens = before ++ after ∧ Spelled before front ∧ Spelled after back :=
  List.map_eq_append_iff

theorem spelled_cons {kind : TokenKind} {text : String} {more : List Lexeme} :
    Spelled tokens ((kind, text) :: more) ↔ ∃ (terminal : Terminal kind) (rest : Tokens),
      tokens = terminal.token :: rest ∧ terminal.token.lexeme = text ∧ Spelled rest more := by
  constructor
  · intro h
    obtain ⟨t, rest, rfl, ht, hrest⟩ := List.map_eq_cons_iff.mp h
    obtain ⟨hkind, htext⟩ := Prod.mk.inj ht
    exact ⟨⟨t, hkind⟩, rest, rfl, htext, hrest⟩
  · rintro ⟨⟨t, rfl⟩, rest, rfl, rfl, hrest⟩
    exact congrArg _ hrest

theorem spelled_singleton {kind : TokenKind} {text : String} :
    Spelled tokens [(kind, text)] ↔
      ∃ terminal : Terminal kind, tokens = [terminal.token] ∧ terminal.token.lexeme = text := by
  rw [spelled_cons]
  constructor
  · rintro ⟨terminal, rest, rfl, htext, hrest⟩
    exact ⟨terminal, by rw [spelled_nil.mp hrest], htext⟩
  · rintro ⟨terminal, rfl, htext⟩
    exact ⟨terminal, [], rfl, htext, spelled_nil.mpr rfl⟩

/-- Whatever tokens spell the value, they derive an item that gives it. -/
def DerivesItem (v : Value) : Prop :=
  ∀ tokens, Spelled tokens v.lexemes → ∃ item : Item, item.tokens = tokens ∧
    Value.splice [item.value] = [v]

/-- Whatever tokens have the lexemes, they derive a scalar that gives the value. -/
def DerivesScalar (lexemes : List Lexeme) (v : Value) : Prop :=
  ∀ tokens, Spelled tokens lexemes → ∃ scalar : Scalar, scalar.tokens = tokens ∧
    scalar.value = v

theorem unquote_quoted (quote : Char) (text : String) :
    Lowering.unquote (Value.quoted quote text) = text := by
  simp [Lowering.unquote, Value.quoted]

theorem derivesScalar_ref (name : String) :
    DerivesScalar (Value.ref (.string name)).lexemes (.ref (.string name)) := by
  intro tokens h
  obtain ⟨terminal, rfl, rfl⟩ := spelled_singleton.mp h
  exact ⟨.name terminal, rfl, rfl⟩

theorem derivesScalar_string (text : String) :
    DerivesScalar (Value.string (.string text)).lexemes (.string (.string text)) := by
  intro tokens h
  rw [Value.lexemes, Value.literalLexeme] at h
  split at h
  · obtain ⟨terminal, rfl, htext⟩ := spelled_singleton.mp h
    refine ⟨.singleQuoted terminal, rfl, ?_⟩
    rw [Scalar.value, htext, unquote_quoted]
  · obtain ⟨terminal, rfl, htext⟩ := spelled_singleton.mp h
    refine ⟨.doubleQuoted terminal, rfl, ?_⟩
    rw [Scalar.value, htext, unquote_quoted]

/-- The tokens of elements derive a sequence that gives them. -/
theorem exists_items {elements : List Value} (h : ∀ v ∈ elements, DerivesItem v)
    (hspelled : Spelled tokens (Value.sequenceLexemes elements)) :
    ∃ items : Sequence, sequenceTokens items = tokens ∧ sequenceValues items = elements := by
  induction elements generalizing tokens with
  | nil => exact ⟨[], (spelled_nil.mp hspelled).symm, rfl⟩
  | cons v rest ih =>
      rw [Value.sequenceLexemes] at hspelled
      obtain ⟨front, back, rfl, hfront, hback⟩ := spelled_append.mp hspelled
      obtain ⟨item, rfl, hvalue⟩ := h v List.mem_cons_self front hfront
      obtain ⟨items, rfl, hvalues⟩ := ih (fun w hw => h w (List.mem_cons_of_mem _ hw)) hback
      refine ⟨item :: items, rfl, ?_⟩
      rw [sequenceValues_cons, hvalue, hvalues]
      rfl

theorem elementTokens_items (items : Sequence) (more : List Element) :
    elementTokens (items.map .item ++ more) = sequenceTokens items ++ elementTokens more := by
  induction items with
  | nil => rfl
  | cons item rest ih =>
      rw [List.map_cons, List.cons_append, elementTokens, ih, Element.tokens, sequenceTokens,
        sequenceTokens, List.flatMap_cons, List.append_assoc]

theorem elementParts_items (items : Sequence) (more : List Element) :
    elementParts (items.map .item ++ more) =
      (elementParts more).modifyHead (sequenceValues items ++ ·) := by
  induction items with
  | nil =>
      rw [List.map_nil, List.nil_append]
      cases elementParts more <;> rfl
  | cons item rest ih =>
      rw [List.map_cons, List.cons_append, elementParts, Element.before, ih,
        List.modifyHead_modifyHead]
      simp only [Function.comp_def, sequenceValues_cons, List.append_assoc]

/-- Elements in parentheses are an item, which has the value of a group. -/
theorem exists_groupItem (opening : Terminal .openParen) (closing : Terminal .closeParen)
    {elements : List Element} (h : elements ≠ []) :
    ∃ item : Item, item.tokens = opening.token :: (elementTokens elements ++ [closing.token]) ∧
      item.value = groupValue (elementParts elements) := by
  obtain ⟨first, more, rfl⟩ := List.exists_cons_of_ne_nil h
  refine ⟨.mk none (.group opening first more closing) none, ?_, ?_⟩
  · simp [Item.tokens, Scalar.tokens, labelTokens, suffixTokens, elementTokens]
  · rw [Item.value, Scalar.value, elementParts]
    rfl

/-- The tokens of branches derive the elements of a group with these parts. -/
theorem exists_elements {first : List Value} {more : List (List Value)}
    (hfirst : ∀ v ∈ first, DerivesItem v) (hmore : ∀ branch ∈ more, ∀ v ∈ branch, DerivesItem v)
    (hspelled : Spelled tokens (Value.sequenceLexemes first ++ Value.branchLexemes more)) :
    ∃ elements : List Element, elementTokens elements = tokens ∧
      elementParts elements = first :: more := by
  induction more generalizing first tokens with
  | nil =>
      rw [Value.branchLexemes, List.append_nil] at hspelled
      obtain ⟨items, rfl, rfl⟩ := exists_items hfirst hspelled
      have htokens := elementTokens_items items []
      have hparts := elementParts_items items []
      rw [elementTokens, List.append_nil, List.append_nil] at htokens
      rw [elementParts, List.append_nil, List.modifyHead_cons, List.append_nil] at hparts
      exact ⟨items.map .item, htokens, hparts⟩
  | cons next rest ih =>
      obtain ⟨front, back, rfl, hfront, hback⟩ := spelled_append.mp hspelled
      rw [Value.branchLexemes] at hback
      obtain ⟨bar, behind, rfl, -, hbehind⟩ := spelled_cons.mp hback
      obtain ⟨items, rfl, rfl⟩ := exists_items hfirst hfront
      obtain ⟨elements, rfl, hparts⟩ := ih (hmore next List.mem_cons_self)
        (fun branch hbranch => hmore branch (List.mem_cons_of_mem _ hbranch)) hbehind
      refine ⟨items.map .item ++ .bar bar :: elements, ?_, ?_⟩
      · rw [elementTokens_items, elementTokens]
        rfl
      · rw [elementParts_items, elementParts, Element.before, hparts, List.modifyHead_cons,
          List.append_nil]

/-- Branches in parentheses are a group, unless there is nothing in them. -/
theorem derivesScalar_group {first : List Value} {more : List (List Value)}
    (hfirst : ∀ v ∈ first, DerivesItem v) (hmore : ∀ branch ∈ more, ∀ v ∈ branch, DerivesItem v)
    (hfull : first :: more ≠ [[]]) :
    DerivesScalar ((.openParen, "(") ::
        (Value.sequenceLexemes first ++ Value.branchLexemes more ++ [(.closeParen, ")")]))
      (groupValue (first :: more)) := by
  intro tokens h
  obtain ⟨opening, rest, rfl, -, hrest⟩ := spelled_cons.mp h
  obtain ⟨inside, last, rfl, hinside, hlast⟩ := spelled_append.mp hrest
  obtain ⟨closing, rfl, -⟩ := spelled_singleton.mp hlast
  obtain ⟨elements, rfl, hparts⟩ := exists_elements hfirst hmore hinside
  cases elements with
  | nil => exact absurd hparts.symm hfull
  | cons element others =>
      refine ⟨.group opening element others closing, ?_, ?_⟩
      · rw [Scalar.tokens, elementTokens, List.cons_append]
      · rw [Scalar.value, ← hparts, elementParts]

/-! ## Labels and suffixes -/

theorem exists_label {label : Json} (h : label = .null ∨ ∃ name, label = .string name)
    (hspelled : Spelled tokens (Value.labelLexemes label)) :
    ∃ l : Option Label, labelTokens l = tokens ∧ labelData l = label := by
  rcases h with rfl | ⟨name, rfl⟩
  · exact ⟨none, (spelled_nil.mp hspelled).symm, rfl⟩
  · obtain ⟨terminal, rest, rfl, rfl, hrest⟩ := spelled_cons.mp hspelled
    obtain ⟨equals, rfl, -⟩ := spelled_singleton.mp hrest
    exact ⟨some ⟨terminal, equals⟩, rfl, rfl⟩

theorem exists_suffix {modifier : Json}
    (h : modifier ∈ ([.null, .string "optional", .string "many", .string "many1"] : List Json))
    (hspelled : Spelled tokens (Value.modifierLexemes modifier)) :
    ∃ s : Option Suffix, suffixTokens s = tokens ∧ modifierData s = modifier := by
  simp only [List.mem_cons, List.not_mem_nil, or_false] at h
  rcases h with rfl | rfl | rfl | rfl
  · exact ⟨none, (spelled_nil.mp hspelled).symm, rfl⟩
  · obtain ⟨terminal, rfl, -⟩ := spelled_singleton.mp hspelled
    exact ⟨some (.optional terminal), rfl, rfl⟩
  · obtain ⟨terminal, rfl, -⟩ := spelled_singleton.mp hspelled
    exact ⟨some (.many terminal), rfl, rfl⟩
  · obtain ⟨terminal, rfl, -⟩ := spelled_singleton.mp hspelled
    exact ⟨some (.many1 terminal), rfl, rfl⟩

/-- What stands under a label or modifier is a scalar, the list of which is closed. -/
theorem derivesItem_named {value inner : Value} {label modifier : Json}
    (hmark : IsMark label modifier) (h : DerivesScalar value.lexemes inner)
    (hclose : Lowering.closeList inner = value) : DerivesItem (.named value label modifier) := by
  intro tokens hspelled
  rw [Value.lexemes] at hspelled
  obtain ⟨front, behind, rfl, hfront, hbehind⟩ := spelled_append.mp hspelled
  obtain ⟨before, middle, rfl, hbefore, hmiddle⟩ := spelled_append.mp hfront
  obtain ⟨l, rfl, hlabel⟩ := exists_label hmark.label_eq hbefore
  obtain ⟨s, rfl, hsuffix⟩ := exists_suffix hmark.modifier_eq hbehind
  obtain ⟨scalar, rfl, rfl⟩ := h middle hmiddle
  have hvalue : marked l s scalar.value = .named value label modifier := by
    unfold marked
    split
    · have hnone := hmark.marks
      simp [← hlabel, ← hsuffix, labelData, modifierData] at hnone
    · rw [hclose, hlabel, hsuffix]
  refine ⟨.mk l scalar s, by rw [Item.tokens], ?_⟩
  rw [Item.value, hvalue]
  rfl

/-- A scalar alone is an item. -/
theorem derivesItem_of_scalar {v : Value} (h : DerivesScalar v.lexemes v)
    (helement : IsElement v) : DerivesItem v := by
  intro tokens hspelled
  obtain ⟨scalar, rfl, hvalue⟩ := h tokens hspelled
  refine ⟨.mk none scalar none, ?_, ?_⟩
  · rw [Item.tokens, labelTokens, List.nil_append, suffixTokens]
    exact List.append_nil _
  · rw [Item.value, marked, hvalue, splice_of_isElement helement]

/-- Every element is derived from its lexemes as an item, and as a scalar unless it
has a label or modifier. -/
theorem derives_of_isElement {v : Value} (h : IsElement v) :
    DerivesItem v ∧
      ((∀ inner label modifier, v ≠ .named inner label modifier) → DerivesScalar v.lexemes v) := by
  induction h with
  | ref name =>
      have hscalar := derivesScalar_ref name
      exact ⟨derivesItem_of_scalar hscalar (.ref name), fun _ => hscalar⟩
  | string text =>
      have hscalar := derivesScalar_string text
      exact ⟨derivesItem_of_scalar hscalar (.string text), fun _ => hscalar⟩
  | @choice branches several elements ih =>
      obtain ⟨first, second, more, rfl⟩ :
          ∃ first second more, branches = first :: second :: more := by
        match branches, several with
        | first :: second :: more, _ => exact ⟨first, second, more, rfl⟩
      have hscalar := derivesScalar_group
        (fun v hv => (ih first List.mem_cons_self v hv).1)
        (fun branch hbranch v hv => (ih branch (List.mem_cons_of_mem _ hbranch) v hv).1)
        (show first :: second :: more ≠ [[]] by simp)
      rw [← Value.lexemes] at hscalar
      exact ⟨derivesItem_of_scalar hscalar (.choice several elements), fun _ => hscalar⟩
  | @named value label modifier element bare mark ih =>
      refine ⟨derivesItem_named mark (ih.2 bare) ?_, fun hnot => absurd rfl (hnot _ _ _)⟩
      cases element <;> rfl
  | @namedTuple elements label modifier nonempty flat mark ih =>
      have hscalar := derivesScalar_group (fun v hv => (ih v hv).1)
        (show ∀ branch ∈ [], ∀ v ∈ branch, DerivesItem v by simp) (by simpa using nonempty)
      rw [Value.branchLexemes, List.append_nil, ← Value.lexemes] at hscalar
      exact ⟨derivesItem_named mark hscalar rfl, fun hnot => absurd rfl (hnot _ _ _)⟩

/-! ## Rules -/

/-- The lexemes of a body derive a sequence, or one alternative behind a bar. -/
theorem exists_body {body : List Value} (h : IsBody body)
    (hspelled : Spelled tokens (Value.bodyLexemes body)) :
    ∃ (lead : Sequence) (alternatives : List Alternative),
      sequenceTokens lead ++ alternatives.flatMap Alternative.tokens = tokens ∧
      ∀ r : Rule, r.lead = lead → r.alternatives = alternatives → r.body = body := by
  cases h with
  | @elements body flat =>
      rw [Value.bodyLexemes_of_elements flat] at hspelled
      obtain ⟨items, rfl, rfl⟩ :=
        exists_items (fun v hv => (derives_of_isElement (flat v hv)).1) hspelled
      refine ⟨items, [], List.append_nil _, ?_⟩
      intro r hlead halternatives
      rw [Rule.body, halternatives, hlead]
      rfl
  | @single branch flat =>
      rw [Value.bodyLexemes, Value.branchLexemes, Value.branchLexemes, List.append_nil] at hspelled
      obtain ⟨bar, rest, rfl, -, hrest⟩ := spelled_cons.mp hspelled
      obtain ⟨items, rfl, rfl⟩ :=
        exists_items (fun v hv => (derives_of_isElement (flat v hv)).1) hrest
      refine ⟨[], [⟨bar, items⟩], ?_, ?_⟩
      · rw [List.flatMap_singleton]
        rfl
      · intro r hlead halternatives
        rw [Rule.body, Rule.branches, halternatives, hlead]
        rfl

theorem exists_rule {name : String} {body : List Value} (h : IsBody body)
    (hspelled : Spelled tokens (Value.ruleLexemes name body)) :
    ∃ r : Rule, r.tokens = tokens ∧ r.value = .ruleDef (.string name) body := by
  obtain ⟨identifier, rest, rfl, rfl, hrest⟩ := spelled_cons.mp hspelled
  obtain ⟨colon, behind, rfl, -, hbehind⟩ := spelled_cons.mp hrest
  obtain ⟨inside, last, rfl, hinside, hlast⟩ := spelled_append.mp hbehind
  obtain ⟨semicolon, rfl, -⟩ := spelled_singleton.mp hlast
  obtain ⟨lead, alternatives, rfl, hbody⟩ := exists_body h hinside
  refine ⟨⟨identifier, colon, lead, alternatives, semicolon⟩, rfl, ?_⟩
  rw [Rule.value, hbody _ rfl rfl]

theorem exists_derivation {name : String} {body : List Value} (h : IsBody body)
    (hspelled : Spelled tokens (Value.documentLexemes name body)) :
    ∃ d : Derivation, d.tokens = tokens ∧
      d.value = .grammar [.rulesField [.ruleDef (.string name) body] (.string "rules")] := by
  obtain ⟨keyword, rest, rfl, hkeyword, hrest⟩ := spelled_cons.mp hspelled
  obtain ⟨opening, behind, rfl, -, hbehind⟩ := spelled_cons.mp hrest
  obtain ⟨inside, last, rfl, hinside, hlast⟩ := spelled_append.mp hbehind
  obtain ⟨closing, rfl, -⟩ := spelled_singleton.mp hlast
  obtain ⟨r, rfl, hvalue⟩ := exists_rule h hinside
  refine ⟨[.rules keyword hkeyword opening [r] closing], ?_, ?_⟩
  · simp [Derivation.tokens, Field.tokens]
  · simp [Derivation.value, Field.value, hvalue]

end Surface

/-! ## Lexemes that scan -/

/-- A symbol of a rule can be spelled: a name is an identifier, and a text makes a
literal in quotes of either kind. -/
def Symbol.IsSpellable : Symbol → Prop
  | .name s => IsLexeme .identifier s
  | .text s =>
      IsLexeme .singleQuoted (Value.quoted '\'' s) ∨ IsLexeme .doubleQuoted (Value.quoted '"' s)
  | _ => True

instance : DecidablePred Symbol.IsSpellable
  | .name _ => inferInstanceAs (Decidable (IsLexeme _ _))
  | .text _ => inferInstanceAs (Decidable (_ ∨ _))
  | .modifier _ | .foreign _ | .unreadable => isTrue trivial

/-- Lexemes of their kinds, none of which is a regular expression. -/
def AreLexemes (lexemes : List Lexeme) : Prop :=
  ∀ l ∈ lexemes, IsLexeme l.1 l.2 ∧ l.1 ≠ .regex

namespace AreLexemes

theorem nil : AreLexemes [] := by simp [AreLexemes]

theorem cons {l : Lexeme} {more : List Lexeme} (hl : IsLexeme l.1 l.2) (hkind : l.1 ≠ .regex)
    (h : AreLexemes more) : AreLexemes (l :: more) := List.forall_mem_cons.mpr ⟨⟨hl, hkind⟩, h⟩

theorem append {front back : List Lexeme} (hfront : AreLexemes front) (hback : AreLexemes back) :
    AreLexemes (front ++ back) := List.forall_mem_append.mpr ⟨hfront, hback⟩

end AreLexemes

namespace Value

theorem areLexemes_literal {text : String} (h : (Symbol.text text).IsSpellable) :
    AreLexemes [literalLexeme text] := by
  unfold literalLexeme
  split
  · next hsingle => exact .cons hsingle (by simp) .nil
  · next hsingle => exact .cons (h.resolve_left hsingle) (by simp) .nil

theorem areLexemes_label {label : Json}
    (h : ∀ s ∈ dataSymbols .name label, s.IsSpellable) : AreLexemes (labelLexemes label) := by
  cases label with
  | string name => exact .cons (h _ List.mem_cons_self) (by simp) (.cons (by decide) (by simp) .nil)
  | _ => exact .nil

theorem areLexemes_modifier (modifier : Json) : AreLexemes (modifierLexemes modifier) := by
  unfold modifierLexemes
  split
  · exact .cons (by decide) (by simp) .nil
  · exact .cons (by decide) (by simp) .nil
  · exact .cons (by decide) (by simp) .nil
  · exact .nil

/-- The lexemes of a value scan if its symbols can be spelled. -/
def Scans (v : Value) : Prop := (∀ s ∈ v.symbols, s.IsSpellable) → AreLexemes v.lexemes

theorem areLexemes_sequence {elements : List Value} (h : ∀ v ∈ elements, v.Scans)
    (hsymbols : ∀ s ∈ sequenceSymbols elements, s.IsSpellable) :
    AreLexemes (sequenceLexemes elements) := by
  induction elements with
  | nil =>
      rw [sequenceLexemes]
      exact .nil
  | cons v rest ih =>
      rw [sequenceSymbols, List.forall_mem_append] at hsymbols
      rw [sequenceLexemes]
      exact .append (h v List.mem_cons_self hsymbols.1)
        (ih (fun w hw => h w (List.mem_cons_of_mem _ hw)) hsymbols.2)

theorem areLexemes_branches {branches : List (List Value)}
    (h : ∀ branch ∈ branches, ∀ v ∈ branch, v.Scans)
    (hsymbols : ∀ s ∈ branchSymbols branches, s.IsSpellable) :
    AreLexemes (branchLexemes branches) := by
  induction branches with
  | nil =>
      rw [branchLexemes]
      exact .nil
  | cons elements rest ih =>
      rw [branchSymbols, List.forall_mem_append] at hsymbols
      rw [branchLexemes]
      refine .cons (by decide) (by simp) (.append ?_ ?_)
      · exact areLexemes_sequence (h elements List.mem_cons_self) hsymbols.1
      · exact ih (fun branch hbranch => h branch (List.mem_cons_of_mem _ hbranch)) hsymbols.2

theorem scans_of_isElement {v : Value} (h : IsElement v) : v.Scans := by
  induction h with
  | ref name =>
      intro hsymbols
      rw [symbols] at hsymbols
      rw [lexemes]
      exact .cons (hsymbols _ List.mem_cons_self) (by simp) .nil
  | string text =>
      intro hsymbols
      rw [symbols] at hsymbols
      rw [lexemes]
      exact areLexemes_literal (hsymbols _ List.mem_cons_self)
  | @choice branches several elements ih =>
      intro hsymbols
      cases branches with
      | nil => simp at several
      | cons first more =>
          rw [symbols, branchSymbols, List.forall_mem_append] at hsymbols
          rw [lexemes]
          refine .cons (by decide) (by simp)
            (.append (.append ?_ ?_) (.cons (by decide) (by simp) .nil))
          · exact areLexemes_sequence (ih first List.mem_cons_self) hsymbols.1
          · exact areLexemes_branches
              (fun branch hbranch => ih branch (List.mem_cons_of_mem _ hbranch)) hsymbols.2
  | @named value label modifier element bare mark ih =>
      intro hsymbols
      rw [symbols, List.forall_mem_append, List.forall_mem_append] at hsymbols
      rw [lexemes]
      exact .append (.append (areLexemes_label hsymbols.1.1) (ih hsymbols.1.2))
        (areLexemes_modifier modifier)
  | @namedTuple elements label modifier nonempty flat mark ih =>
      intro hsymbols
      rw [symbols, symbols, List.forall_mem_append, List.forall_mem_append] at hsymbols
      rw [lexemes, lexemes]
      refine .append (.append (areLexemes_label hsymbols.1.1) ?_) (areLexemes_modifier modifier)
      exact .cons (by decide) (by simp)
        (.append (areLexemes_sequence ih hsymbols.1.2) (.cons (by decide) (by simp) .nil))

theorem areLexemes_body {body : List Value} (h : IsBody body)
    (hsymbols : ∀ s ∈ sequenceSymbols body, s.IsSpellable) : AreLexemes (bodyLexemes body) := by
  cases h with
  | elements flat =>
      rw [bodyLexemes_of_elements flat]
      exact areLexemes_sequence (fun v hv => scans_of_isElement (flat v hv)) hsymbols
  | single flat =>
      rw [sequenceSymbols_singleton, symbols] at hsymbols
      rw [bodyLexemes]
      refine areLexemes_branches (fun branch hbranch v hv => ?_) hsymbols
      rw [List.mem_singleton.mp hbranch] at hv
      exact scans_of_isElement (flat v hv)

theorem areLexemes_document {name : String} {body : List Value} (hbody : IsBody body)
    (hname : IsLexeme .identifier name)
    (hsymbols : ∀ s ∈ sequenceSymbols body, s.IsSpellable) :
    AreLexemes (documentLexemes name body) := by
  have hrule : AreLexemes (ruleLexemes name body) :=
    .cons hname (by simp) (.cons (by decide) (by simp)
      (.append (areLexemes_body hbody hsymbols) (.cons (by decide) (by simp) .nil)))
  exact .cons (by decide) (by simp) (.cons (by decide) (by simp)
    (.append hrule (.cons (by decide) (by simp) .nil)))

end Value

/-! ## The text of a rule -/

/-- A text with lexemes on lines of their own is lowered to what all tokens with these
lexemes derive. -/
theorem lowerText_linesOf {lexemes : List Lexeme} (h : AreLexemes lexemes) {v : Value}
    (hderive : ∀ tokens, Surface.Spelled tokens lexemes →
      ∃ d : Surface.Derivation, d.tokens = tokens ∧ d.value = v) :
    lowerText (String.ofList (linesOf lexemes)) = .ok v := by
  obtain ⟨scan, hscan, hspelled⟩ := Scan.exists_of_lexemes (fun l hl => (h l hl).1)
    fun ahead text tail behind heq => absurd rfl (h (.regex, text) (by rw [heq]; simp)).2
  obtain ⟨d, htokens, hvalue⟩ := hderive _ hspelled
  have hnumbers : Lowering.NumbersRead d.tokens := by
    rw [htokens]
    exact Lowering.numbersRead_scan hscan
  have hparse : Document.parse (String.ofList (linesOf lexemes)) = .ok d.tree := by
    refine (Surface.parse_eq_ok_iff ?_).mpr ⟨d, htokens, rfl⟩
    rw [String.toList_ofList, hscan]
  rw [lowerText, hparse]
  simp only [Lowering.lower_tree hnumbers, hvalue]

/-- The text that spells out a rule is lowered to this rule alone. -/
theorem lowerText_documentText {name : String} {body : List Value} (hbody : IsBody body)
    (hname : IsLexeme .identifier name)
    (hsymbols : ∀ s ∈ Value.sequenceSymbols body, s.IsSpellable) :
    lowerText (Value.documentText name body) =
      .ok (.grammar [.rulesField [.ruleDef (.string name) body] (.string "rules")]) :=
  lowerText_linesOf (Value.areLexemes_document hbody hname hsymbols)
    fun _ hspelled => Surface.exists_derivation hbody hspelled

/-- Every well-formed body of which the names are identifiers and the texts can be
quoted is the body of the one rule in some text. -/
theorem exists_text_of_isBody {name : String} {body : List Value} (hbody : IsBody body)
    (hname : IsLexeme .identifier name)
    (hsymbols : ∀ s ∈ Value.sequenceSymbols body, s.IsSpellable) :
    ∃ text fields, lowerText text = .ok (.grammar fields) ∧
      Value.rules fields = [.ruleDef (.string name) body] :=
  ⟨Value.documentText name body, _, lowerText_documentText hbody hname hsymbols, rfl⟩

/-- A label behind a bare name, and a choice with an empty branch under a modifier, the
text in which needs double quotes. -/
theorem exists_text_of_labelBehindName :
    ∃ text fields, lowerText text = .ok (.grammar fields) ∧
      Value.rules fields = [.ruleDef (.string "r")
        [.ref (.string "a"), .named (.ref (.string "b")) (.string "x") .null,
          .named (.tuple [.choice [[.string (.string "it's")], []]]) .null (.string "many")]] := by
  have hlabeled : IsElement (.named (.ref (.string "b")) (.string "x") .null) :=
    .named (.ref "b") (by simp) ⟨.inr ⟨"x", rfl⟩, List.mem_cons_self, .inl (by simp)⟩
  have hchoice : IsElement (.choice [[.string (.string "it's")], []]) :=
    .choice (by simp) (by simp [IsElement.string])
  have hrepeated : IsElement (.named (.tuple [.choice [[.string (.string "it's")], []]]) .null
      (.string "many")) :=
    .namedTuple (by simp) (by simpa using hchoice) ⟨.inl rfl, by simp, .inr (by simp)⟩
  refine exists_text_of_isBody (.elements ?_) (by decide) (by decide +kernel)
  simp [IsElement.ref, hlabeled, hrepeated]

example : (Value.documentText "r" [.choice [[.ref (.string "a")]]]).toList =
    "rules\n\x7b\nr\n:\n|\na\n;\n\x7d\n".toList := by
  decide

end Rulebook
