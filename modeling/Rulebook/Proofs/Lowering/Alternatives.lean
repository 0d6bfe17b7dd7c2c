import Rulebook.Proofs.Lowering.Layout
import Rulebook.Proofs.Lowering.Spelling

/-! # Choices between sequences

A choice between sequences can be spelled with a bar in front of each, with bars between
them, or in parentheses. The body of the rule is one flat choice in any case, and its
branches are the bodies of the rules that hold one of the sequences alone.
-/

namespace Rulebook

open Document (Tokens)
open Lowering (NumbersRead)

/-! ## Lexemes of choices -/

/-- Alternatives with a bar in front of each. -/
def barsInFront (parts : List (List Lexeme)) : List Lexeme :=
  parts.flatMap fun part => (.bar, "|") :: part

/-- Alternatives with bars between them. -/
def barsBetween (parts : List (List Lexeme)) : List Lexeme := [(.bar, "|")].intercalate parts

/-- Lexemes in parentheses. -/
def inParentheses (lexemes : List Lexeme) : List Lexeme :=
  (.openParen, "(") :: (lexemes ++ [(.closeParen, ")")])

/-- The lexemes of a rule, by those that stand between its colon and its semicolon. -/
def ruleAround (name : String) (chain : List Lexeme) : List Lexeme :=
  (.identifier, name) :: (.colon, ":") :: (chain ++ [(.semicolon, ";")])

/-- The lexemes of a document that holds one rule alone. -/
def documentAround (name : String) (chain : List Lexeme) : List Lexeme :=
  (.identifier, "rules") :: (.openBrace, "\x7b") :: (ruleAround name chain ++ [(.closeBrace, "\x7d")])

/-- The grammar with one rule alone. -/
def grammarOf (name : String) (body : List Value) : Value :=
  .grammar [.rulesField [.ruleDef (.string name) body] (.string "rules")]

/-- The lexemes of a sequence of items, perhaps an empty one. -/
def IsSequence (lexemes : List Lexeme) : Prop :=
  ∃ items : Surface.Sequence, Surface.Spelled (Surface.sequenceTokens items) lexemes

/-- A rule with these lexemes behind its colon has this body, wherever its tokens are
placed: they are read and lowered to that rule, and so is every text with such tokens. -/
structure HasBody (name : String) (chain : List Lexeme) (body : List Value) : Prop where
  tokens : ∀ tokens, Surface.Spelled tokens (documentAround name chain) →
    ∃ t, Document.ofTokens tokens = .ok t ∧ Lowering.lower t = .ok (grammarOf name body)
  text : ∀ (text : String) (scan : Scan), Scan.ofChars text.toList = .ok scan →
    Surface.Spelled scan.tokens (documentAround name chain) →
      lowerText text = .ok (grammarOf name body)

/-- There is but one body for given lexemes. -/
theorem HasBody.unique {name : String} {chain : List Lexeme} {body other : List Value}
    (h : HasBody name chain body) (h' : HasBody name chain other) : other = body := by
  have hspelled : Surface.Spelled
      ((documentAround name chain).map fun l => { kind := l.1, lexeme := l.2 })
      (documentAround name chain) := by
    simp [Surface.Spelled, Function.comp_def]
  obtain ⟨t, ht, hlower⟩ := h.tokens _ hspelled
  obtain ⟨t', ht', hlower'⟩ := h'.tokens _ hspelled
  obtain rfl : t' = t := Except.ok.inj (ht'.symm.trans ht)
  simpa [grammarOf] using hlower'.symm.trans hlower

namespace Surface

/-! ## Derivations of choices -/

theorem Rule.numbersRead (r : Rule) : NumbersRead r.tokens :=
  fun t ht hkind => absurd hkind (r.kind_ne (by decide) t ht)

theorem numbersRead_of_lexemes {tokens tokens' : Tokens} (h : NumbersRead tokens)
    (heq : tokens.map (fun t => (t.kind, t.lexeme)) = tokens'.map fun t => (t.kind, t.lexeme)) :
    NumbersRead tokens' := by
  intro t ht hkind
  have hmem : (t.kind, t.lexeme) ∈ tokens.map fun t => (t.kind, t.lexeme) := by
    rw [heq]
    exact List.mem_map_of_mem ht
  obtain ⟨s, hs, hsame⟩ := List.mem_map.mp hmem
  obtain ⟨hk, hl⟩ := Prod.mk.inj hsame
  rw [← hl]
  exact h s hs (hk.trans hkind)

/-- A terminal that spells a lexeme, at no place in particular. -/
def spelling (kind : TokenKind) (text : String) : Terminal kind := ⟨⟨kind, text, 0, 0, 1, 1⟩, rfl⟩

/-- A rule with given parts between its colon and its semicolon. -/
def ruleOf (name : String) (lead : Sequence) (alternatives : List Alternative) : Rule :=
  ⟨spelling .identifier name, spelling .colon ":", lead, alternatives, spelling .semicolon ";"⟩

/-- A document with that rule alone. -/
def documentOf (name : String) (lead : Sequence) (alternatives : List Alternative) : Derivation :=
  [.rules (spelling .identifier "rules") rfl (spelling .openBrace "\x7b")
    [ruleOf name lead alternatives] (spelling .closeBrace "\x7d")]

variable {name : String} {lead : Sequence} {alternatives : List Alternative}

theorem spelled_documentOf {chain : List Lexeme}
    (h : Spelled (sequenceTokens lead ++ alternatives.flatMap Alternative.tokens) chain) :
    Spelled (documentOf name lead alternatives).tokens (documentAround name chain) := by
  rw [Spelled] at h
  simp [Spelled, documentOf, Derivation.tokens, Field.tokens, Rule.tokens, ruleOf, spelling,
    documentAround, ruleAround, ← h]

theorem numbersRead_documentOf : NumbersRead (documentOf name lead alternatives).tokens := by
  simp only [documentOf, Derivation.tokens, Field.tokens, List.flatMap_singleton]
  intro t ht hkind
  simp only [List.mem_cons, List.mem_append, List.not_mem_nil, or_false] at ht
  rcases ht with rfl | rfl | ht | rfl
  · cases hkind
  · cases hkind
  · exact Rule.numbersRead _ t ht hkind
  · cases hkind

/-- The body of one derivation of a rule is the body of all rules with its lexemes. -/
theorem hasBody_ruleOf {chain : List Lexeme}
    (h : Spelled (sequenceTokens lead ++ alternatives.flatMap Alternative.tokens) chain) :
    HasBody name chain (ruleOf name lead alternatives).body := by
  have hvalue : (documentOf name lead alternatives).value =
      grammarOf name (ruleOf name lead alternatives).body := rfl
  constructor
  · intro tokens htokens
    have heq := (spelled_documentOf h).trans htokens.symm
    obtain ⟨d', rfl, hvalue'⟩ := exists_derivation_of_lexemes heq
    refine ⟨d'.tree, Document.ofTokens_complete d', ?_⟩
    rw [Lowering.lower_tree (numbersRead_of_lexemes numbersRead_documentOf heq), hvalue', hvalue]
  · intro text scan hscan htokens
    obtain ⟨d', hd', hvalue'⟩ :=
      exists_derivation_of_lexemes ((spelled_documentOf h).trans htokens.symm)
    rw [lowerText_eq_ok hscan hd', hvalue', hvalue]

/-! ## Bars -/

/-- A bar at no place in particular. -/
def bar : Terminal .bar := spelling .bar "|"

/-- Sequences as alternatives. -/
def alternativesOf (sequences : List Sequence) : List Alternative := sequences.map (⟨bar, ·⟩)

/-- The elements of a group that holds a sequence and more of them, each behind a bar. -/
def chainElements (first : Sequence) (more : List Sequence) : List Element :=
  first.map .item ++ more.flatMap fun items => .bar bar :: items.map .item

/-- Sequences that spell some parts, one by one. -/
abbrev SpellEach (sequences : List Sequence) (parts : List (List Lexeme)) : Prop :=
  List.Forall₂ (fun items part => Spelled (sequenceTokens items) part) sequences parts

variable {first : Sequence} {sequences : List Sequence} {part : List Lexeme}
  {parts : List (List Lexeme)}

theorem Spelled.append {tokens tokens' : Tokens} {front back : List Lexeme}
    (h : Spelled tokens front) (h' : Spelled tokens' back) :
    Spelled (tokens ++ tokens') (front ++ back) :=
  spelled_append.mpr ⟨tokens, tokens', rfl, h, h'⟩

theorem Spelled.cons {kind : TokenKind} {text : String} {tokens : Tokens} {more : List Lexeme}
    (h : Spelled tokens more) :
    Spelled ((spelling kind text).token :: tokens) ((kind, text) :: more) :=
  spelled_cons.mpr ⟨spelling kind text, tokens, rfl, rfl, h⟩

theorem spelled_alternativesOf (h : SpellEach sequences parts) :
    Spelled ((alternativesOf sequences).flatMap Alternative.tokens) (barsInFront parts) := by
  induction h with
  | nil => rfl
  | cons hfirst _ ih => exact (Spelled.cons hfirst).append ih

/-- Bars between alternatives are bars in front of all but the first. -/
theorem barsBetween_cons (part : List Lexeme) (parts : List (List Lexeme)) :
    barsBetween (part :: parts) = part ++ barsInFront parts := by
  induction parts generalizing part with
  | nil => simp [barsBetween, barsInFront]
  | cons next more ih =>
      rw [barsBetween, List.intercalate_cons_cons, ← barsBetween, ih, List.append_assoc]
      rfl

theorem elementTokens_chain (first : Sequence) (sequences : List Sequence) :
    elementTokens (chainElements first sequences) =
      sequenceTokens first ++ (alternativesOf sequences).flatMap Alternative.tokens := by
  rw [chainElements, elementTokens_items]
  congr 1
  induction sequences with
  | nil => rw [List.flatMap_nil, elementTokens]; rfl
  | cons items more ih =>
      rw [List.flatMap_cons, List.cons_append, elementTokens, elementTokens_items, ih]
      simp [Element.tokens, alternativesOf, Alternative.tokens]

/-- Between its bars a group has the elements of the sequences. -/
theorem elementParts_chain (first : Sequence) (sequences : List Sequence) :
    elementParts (chainElements first sequences) = (first :: sequences).map sequenceValues := by
  induction sequences generalizing first with
  | nil =>
      rw [chainElements, List.flatMap_nil, elementParts_items, elementParts]
      simp
  | cons items more ih =>
      rw [chainElements, List.flatMap_cons, List.cons_append, elementParts_items, elementParts,
        ← chainElements, ih, Element.before]
      simp

theorem chainElements_ne_nil (first items : Sequence) :
    chainElements first (items :: sequences) ≠ [] := by
  simp [chainElements]

/-! ## Bodies of choices -/

/-- The body of a rule with several branches is the choice between them. -/
theorem body_ruleOf_alternatives (h : alternatives ≠ []) :
    (ruleOf name lead alternatives).body =
      [.choice ((ruleOf name lead alternatives).branches.map sequenceValues)] := by
  rw [Rule.body, if_neg]
  simpa [ruleOf] using h

theorem hasBody_single {items : Sequence} (h : Spelled (sequenceTokens items) part) :
    HasBody name part (sequenceValues items) := by
  have hbody : (ruleOf name items []).body = sequenceValues items := rfl
  rw [← hbody]
  exact hasBody_ruleOf (by simpa using h)

theorem hasBody_barsInFront (hne : sequences ≠ []) (h : SpellEach sequences parts) :
    HasBody name (barsInFront parts) [.choice (sequences.map sequenceValues)] := by
  have hbody : (ruleOf name [] (alternativesOf sequences)).body =
      [.choice (sequences.map sequenceValues)] := by
    rw [body_ruleOf_alternatives (by simpa [alternativesOf] using hne), Rule.branches]
    simp [ruleOf, alternativesOf, Function.comp_def]
  rw [← hbody]
  exact hasBody_ruleOf (spelled_alternativesOf h)

theorem hasBody_barsBetween (hfirst : first ≠ []) (hne : sequences ≠ [])
    (hpart : Spelled (sequenceTokens first) part) (h : SpellEach sequences parts) :
    HasBody name (barsBetween (part :: parts))
      [.choice ((first :: sequences).map sequenceValues)] := by
  have hbody : (ruleOf name first (alternativesOf sequences)).body =
      [.choice ((first :: sequences).map sequenceValues)] := by
    rw [body_ruleOf_alternatives (by simpa [alternativesOf] using hne), Rule.branches]
    simp [ruleOf, alternativesOf, hfirst, Function.comp_def]
  rw [← hbody, barsBetween_cons]
  exact hasBody_ruleOf (hpart.append (spelled_alternativesOf h))

theorem hasBody_inParentheses (hne : sequences ≠ []) (hpart : Spelled (sequenceTokens first) part)
    (h : SpellEach sequences parts) :
    HasBody name (inParentheses (barsBetween (part :: parts)))
      [.choice ((first :: sequences).map sequenceValues)] := by
  obtain ⟨second, more, rfl⟩ := List.exists_cons_of_ne_nil hne
  obtain ⟨item, htokens, hvalue⟩ := exists_groupItem (spelling .openParen "(")
    (spelling .closeParen ")") (chainElements_ne_nil first second)
  have hbody : (ruleOf name [item] []).body =
      [.choice ((first :: second :: more).map sequenceValues)] := by
    have hgroup : item.value = .choice ((first :: second :: more).map sequenceValues) := by
      rw [hvalue, elementParts_chain]
      rfl
    have hitem : (ruleOf name [item] []).body = Value.splice [item.value] := rfl
    rw [hitem, hgroup]
    rfl
  rw [← hbody, barsBetween_cons]
  refine hasBody_ruleOf ?_
  have hinside := hpart.append (spelled_alternativesOf h)
  rw [← elementTokens_chain] at hinside
  have hspelled : Spelled item.tokens (inParentheses (part ++ barsInFront parts)) := by
    rw [htokens]
    exact (hinside.append (spelled_nil.mpr rfl).cons).cons
  simpa [sequenceTokens] using hspelled

/-- Parts are sequences if there are derivations for all of them. -/
theorem forall_isSequence_iff :
    (∀ part ∈ parts, IsSequence part) ↔ ∃ sequences, SpellEach sequences parts := by
  induction parts with
  | nil => simp
  | cons part more ih =>
      rw [List.forall_mem_cons, ih]
      constructor
      · rintro ⟨⟨items, hitems⟩, sequences, hmore⟩
        exact ⟨items :: sequences, .cons hitems hmore⟩
      · rintro ⟨_, hitems | ⟨hitems, hmore⟩⟩
        exact ⟨⟨_, hitems⟩, _, hmore⟩

/-- Each of some parts has the elements of its sequence as the body of a rule of its own. -/
theorem forall₂_hasBody (name : String) (h : SpellEach sequences parts) :
    List.Forall₂ (HasBody name) parts (sequences.map sequenceValues) := by
  rw [List.forall₂_map_right_iff]
  exact h.flip.imp fun _ _ hpart => hasBody_single hpart

end Surface

/-- A choice between sequences is one choice, in which each sequence has the body that it
has in a rule of its own: with a bar in front of each, with bars between several of them
the first of which is not empty, and with these in parentheses. -/
theorem choice_of_sequences (name : String) {parts : List (List Lexeme)} (hne : parts ≠ [])
    (h : ∀ part ∈ parts, IsSequence part) :
    ∃ bodies, List.Forall₂ (HasBody name) parts bodies ∧
      HasBody name (barsInFront parts) [.choice bodies] ∧
      (2 ≤ parts.length →
        ((∀ first ∈ parts.head?, first ≠ []) → HasBody name (barsBetween parts) [.choice bodies]) ∧
        HasBody name (inParentheses (barsBetween parts)) [.choice bodies]) := by
  obtain ⟨sequences, heach⟩ := Surface.forall_isSequence_iff.mp h
  refine ⟨sequences.map Surface.sequenceValues, Surface.forall₂_hasBody name heach, ?_, ?_⟩
  · refine Surface.hasBody_barsInFront ?_ heach
    rintro rfl
    cases heach
    exact hne rfl
  · intro hseveral
    cases heach with
    | nil => exact absurd rfl hne
    | @cons first part sequences parts hfirst hmore =>
        have hothers : sequences ≠ [] := by
          rintro rfl
          cases hmore
          simp at hseveral
        refine ⟨fun hfull => ?_, Surface.hasBody_inParentheses hothers hfirst hmore⟩
        refine Surface.hasBody_barsBetween ?_ hothers hfirst hmore
        rintro rfl
        exact hfull part rfl hfirst.symm

/-! ## Three sequences, the second of which is empty

The first one ends with a group that has an empty part. -/

namespace Surface

/-- The items of `a (b |)*`, no items, and those of `c`. -/
def aroundEmpty : List Sequence :=
  [[.mk none (.name (spelling .identifier "a")) none,
    .mk none (.group (spelling .openParen "(")
      (.item (.mk none (.name (spelling .identifier "b")) none)) [.bar bar]
      (spelling .closeParen ")")) (some (.many (spelling .star "*")))],
   [],
   [.mk none (.name (spelling .identifier "c")) none]]

/-- Their lexemes. -/
def aroundEmptyParts : List (List Lexeme) :=
  [[(.identifier, "a"), (.openParen, "("), (.identifier, "b"), (.bar, "|"), (.closeParen, ")"),
    (.star, "*")], [], [(.identifier, "c")]]

/-- The choice between them. -/
def aroundEmptyChoice : Value :=
  .choice
    [[.ref (.string "a"), .named (.choice [[.ref (.string "b")], []]) .null (.string "many")], [],
     [.ref (.string "c")]]

end Surface

open Surface

theorem choice_of_sequences_emptyBranch :
    HasBody "r" (barsInFront aroundEmptyParts) [aroundEmptyChoice] ∧
      HasBody "r" (barsBetween aroundEmptyParts) [aroundEmptyChoice] ∧
      HasBody "r" (inParentheses (barsBetween aroundEmptyParts)) [aroundEmptyChoice] ∧
      lowerText "rules \x7b r: (a (b |)* | | c); \x7d" = .ok (grammarOf "r" [aroundEmptyChoice]) := by
  have heach : SpellEach aroundEmpty aroundEmptyParts := .cons rfl (.cons rfl (.cons rfl .nil))
  have hparts := forall_isSequence_iff.mpr ⟨aroundEmpty, heach⟩
  obtain ⟨bodies, hbodies, hfront, hrest⟩ := choice_of_sequences "r" (by decide) hparts
  obtain ⟨hbetween, hgroup⟩ := hrest (by decide)
  obtain rfl : bodies = aroundEmpty.map sequenceValues :=
    List.right_unique_forall₂' (fun _ _ _ h h' => h'.unique h) hbodies (forall₂_hasBody "r" heach)
  have hscan : (Scan.ofChars "rules \x7b r: (a (b |)* | | c); \x7d".toList).map
      (fun scan => scan.tokens.map fun t => (t.kind, t.lexeme)) =
        .ok (documentAround "r" (inParentheses (barsBetween aroundEmptyParts))) := by
    cbv
  obtain ⟨scan, h, hspelled⟩ := exists_of_map_eq_ok hscan
  exact ⟨hfront, hbetween (by simp [aroundEmptyParts]), hgroup, hgroup.text _ scan h hspelled⟩

end Rulebook
