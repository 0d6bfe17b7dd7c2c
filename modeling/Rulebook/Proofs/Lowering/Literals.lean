import Rulebook.Proofs.Lowering.Conservation
import Rulebook.Proofs.Lowering.Options
import Rulebook.Proofs.Token.Literals

/-! # Literals are carried verbatim

A regular expression of an option is lowered to its pattern and its flags, and a literal, of an
option or in a rule, to the text between its quotes. Nothing in them is rewritten: put together
again they are the token, character by character.
-/

namespace Rulebook

open Text
open List (Forall₂)
open Document (Tokens)

/-- A value carries the token of a literal as it is written. -/
inductive Carries (t : Token TokenKind) : Value → Prop
  | regex {pattern flags : List Char} (kind_eq : t.kind = .regex)
      (lexeme : RegexLexeme t.lexeme.toList pattern flags) :
      Carries t (.regex (.string (String.ofList pattern)) (.string (String.ofList flags)))
  | quoted {quote : Char} {text : List Char} (kind_mem : (t.kind, quote) ∈ quotes)
      (lexeme : QuotedLexeme quote t.lexeme.toList text) :
      Carries t (.string (.string (String.ofList text)))

/-! ## Taking literals apart -/

namespace Lowering

/-- The last slash of a regular expression is the one that ends the pattern. -/
theorem regexValue_of_lexeme {s : String} {pattern flags : List Char}
    (h : RegexLexeme s.toList pattern flags) :
    regexValue s = .regex (.string (String.ofList pattern)) (.string (String.ofList flags)) := by
  -- Read from the right, the first slash is the one behind the pattern: flags hold none.
  have hplain : ∀ c ∈ flags.reverse, decide (c ≠ '/') := by
    intro c hc
    apply decide_eq_true
    rintro rfl
    exact absurd (h.are_flags _ (List.mem_reverse.mp hc)) (by decide)
  have hreverse : s.toList.reverse = flags.reverse ++ '/' :: (pattern.reverse ++ ['/']) := by
    simp [h.lexeme_eq]
  have hstop : Sequence.StopsBefore (fun c => decide (c ≠ '/'))
      ('/' :: (pattern.reverse ++ ['/'])) := by
    simp
  simp only [regexValue, hreverse, Sequence.takeWhile_append hplain hstop,
    Sequence.dropWhile_append hplain hstop]
  simp

theorem unquote_of_lexeme {s : String} {quote : Char} {text : List Char}
    (h : QuotedLexeme quote s.toList text) : unquote s = String.ofList text := by
  rw [unquote, h]
  simp

end Lowering

section

variable {text : List Char} {scan : Scan} {t : Token TokenKind}

theorem carries_regexValue (h : Scan.ofChars text = .ok scan) (ht : t ∈ scan.tokens)
    (hkind : t.kind = .regex) : Carries t (Lowering.regexValue t.lexeme) := by
  obtain ⟨pattern, flags, hlexeme⟩ := Scan.exists_regexLexeme h ht hkind
  rw [Lowering.regexValue_of_lexeme hlexeme]
  exact .regex hkind hlexeme

theorem carries_unquote {quote : Char} (h : Scan.ofChars text = .ok scan) (ht : t ∈ scan.tokens)
    (hquote : (t.kind, quote) ∈ quotes) :
    Carries t (.string (.string (Lowering.unquote t.lexeme))) := by
  obtain ⟨body, hlexeme⟩ := Scan.exists_quotedLexeme h ht hquote
  rw [Lowering.unquote_of_lexeme hlexeme]
  exact .quoted hquote hlexeme

end

/-! ## Literals in rules -/

/-- Whether a token is a literal between quotes. -/
def Token.isQuoted (t : Token TokenKind) : Bool := quotes.any fun entry => t.kind = entry.1

theorem Token.isQuoted_iff {t : Token TokenKind} :
    t.isQuoted ↔ ∃ quote, (t.kind, quote) ∈ quotes := by
  rw [isQuoted, List.any_eq_true]
  constructor
  · rintro ⟨entry, hmem, hkind⟩
    exact ⟨entry.2, of_decide_eq_true hkind ▸ hmem⟩
  · rintro ⟨quote, hmem⟩
    exact ⟨_, hmem, decide_eq_true rfl⟩

/-- The text that a symbol stands for. -/
def Symbol.text? : Symbol → Option String
  | .text s => some s
  | _ => none

/-- The texts of the literals in rules, from left to right. -/
def Value.literalTexts (rules : List Value) : List String :=
  (rules.flatMap ruleSymbols).filterMap Symbol.text?

/-- The texts among the symbols of tokens are those of the literals. -/
theorem filterMap_text?_symbols (tokens : Tokens) :
    (tokens.flatMap Token.symbols).filterMap Symbol.text? =
      (tokens.filter Token.isQuoted).map fun t => Lowering.unquote t.lexeme := by
  induction tokens with
  | nil => rfl
  | cons t rest ih =>
      rw [List.flatMap_cons, List.filterMap_append, ih]
      obtain ⟨kind, lexeme⟩ := t
      cases kind <;> rfl

/-! ## Literals of options -/

namespace Surface

open Lowering (lower NumbersRead)

/-- The kinds of literal that an option may have. -/
def literalKinds : List TokenKind := [.regex, .doubleQuoted, .singleQuoted]

theorem OptionValue.carries_value {v : OptionValue} {text : List Char} {scan : Scan}
    (hscan : Scan.ofChars text = .ok scan) (ht : v.token ∈ scan.tokens)
    (hkind : v.token.kind ∈ literalKinds) : Carries v.token v.value := by
  cases v with
  | regex t => exact carries_regexValue hscan ht t.kind_eq
  | doubleQuoted t | singleQuoted t =>
      have hquoted : t.token.isQuoted := by rw [Token.isQuoted, t.kind_eq]; decide
      obtain ⟨quote, hquote⟩ := Token.isQuoted_iff.mp hquoted
      exact carries_unquote hscan ht hquote
  | number t | true t | false t | name t =>
      have hother : t.token.kind ∈ literalKinds := hkind
      rw [t.kind_eq] at hother
      exact absurd hother (by decide)

/-- The options in token sections that are literals are lowered to values that carry them. -/
def Derivation.CarriesOptions (d : Derivation) : Prop :=
  ∀ declaration ∈ d.sectionDeclarations, ∀ o ∈ declaration.options.entries,
    o.value.token.kind ∈ literalKinds → ∃ v, lower o.value.tree = .ok v ∧ Carries o.value.token v

theorem Derivation.carriesOptions {d : Derivation} {text : List Char} {scan : Scan}
    (hscan : Scan.ofChars text = .ok scan) (htokens : d.tokens = scan.tokens) :
    d.CarriesOptions := by
  intro declaration hdeclaration o ho hkind
  have htoken := mem_tokens_of_option hdeclaration ho
  have hread : NumbersRead [o.value.token] := by
    intro t ht hnumber
    rw [List.mem_singleton.mp ht] at hnumber
    rw [hnumber] at hkind
    exact absurd hkind (by decide)
  refine ⟨_, Lowering.lower_optionValue_tree hread, ?_⟩
  exact OptionValue.carries_value hscan (htokens ▸ htoken) hkind

end Surface

/-- Every text that is parsed is lowered, and the values of its options that are literals carry
these, as the literals in the rules of the grammar, one by one, carry those in the blocks of
rules. -/
theorem lowerText_carries_literals {text : String} {t : Tree} (h : Document.parse text = .ok t) :
    ∃ (scan : Scan) (d : Surface.Derivation) (fields : List Value),
      Scan.ofChars text.toList = .ok scan ∧ d.tokens = scan.tokens ∧ d.tree = t ∧
        lowerText text = .ok (.grammar fields) ∧ d.Becomes fields ∧ d.CarriesOptions ∧
        Forall₂ (fun literal text => Carries literal (.string (.string text)))
          ((blockTokens scan.tokens).filter Token.isQuoted)
          (Value.literalTexts (Value.rules fields)) := by
  obtain ⟨scan, d, hscan, htokens, htree⟩ := Surface.exists_derivation_of_parse h
  refine ⟨scan, d, _, hscan, htokens, htree, lowerText_eq_ok hscan htokens,
    Surface.Derivation.becomes_of_scan hscan htokens,
    Surface.Derivation.carriesOptions hscan htokens, ?_⟩
  rw [Value.literalTexts, d.symbols_rules, filterMap_text?_symbols, htokens,
    List.forall₂_map_right_iff, List.forall₂_same]
  intro literal hmem
  obtain ⟨hblock, hquoted⟩ := List.mem_filter.mp hmem
  obtain ⟨quote, hquote⟩ := Token.isQuoted_iff.mp hquoted
  exact carries_unquote hscan ((blockTokens_sublist _).subset hblock) hquote

/-- A pattern of an escaped slash and a pair of backslashes, and literals of an escaped quote. -/
def escapesText : String :=
  "tokens\x7bT:\x7ba:/\\/\\\\/i,b:'\\''\x7d\x7drules\x7br:\"\\\"\" '\\\\';\x7d"

theorem lowerText_carries_escapes :
    ∃ (t : Tree) (scan : Scan) (d : Surface.Derivation) (fields : List Value),
      Document.parse escapesText = .ok t ∧ Scan.ofChars escapesText.toList = .ok scan ∧
        d.tokens = scan.tokens ∧ d.tree = t ∧ lowerText escapesText = .ok (.grammar fields) ∧
        d.Becomes fields ∧ d.CarriesOptions ∧
        Forall₂ (fun literal text => Carries literal (.string (.string text)))
          ((blockTokens scan.tokens).filter Token.isQuoted)
          (Value.literalTexts (Value.rules fields)) ∧
        (scan.tokens.filter fun t => t.kind ∈ Surface.literalKinds).map Token.lexeme =
          ["/\\/\\\\/i", "'\\''", "\"\\\"\"", "'\\\\'"] := by
  have hparse : (Document.parse escapesText).isOk := by cbv
  have hliterals : (Scan.ofChars escapesText.toList).map (fun scan =>
      (scan.tokens.filter fun t => t.kind ∈ Surface.literalKinds).map Token.lexeme) =
        .ok ["/\\/\\\\/i", "'\\''", "\"\\\"\"", "'\\\\'"] := by
    cbv
  obtain ⟨t, ht⟩ := exists_of_isOk hparse
  obtain ⟨scan, d, fields, hscan, htokens, htree, htext, hbecomes, hoptions, hrules⟩ :=
    lowerText_carries_literals ht
  obtain ⟨scan', hscan', hlexemes⟩ := exists_of_map_eq_ok hliterals
  obtain rfl := Except.ok.inj (hscan.symm.trans hscan')
  exact ⟨t, scan, d, fields, ht, hscan, htokens, htree, htext, hbecomes, hoptions, hrules, hlexemes⟩

end Rulebook
