import Rulebook.Proofs.Surface.Unambiguity

/-! # The parser accepts its grammar

A scanned text is a document exactly if its tokens have a derivation. The
derivation is the only one, and the tree of the document is its tree. Without a
derivation the text is refused.
-/

namespace Rulebook.Surface

open Document (Tokens)

variable {text : String} {scan : Scan} {t : Tree}

theorem parse_eq_ok_iff_ofTokens (h : Scan.ofChars text.toList = .ok scan) :
    Document.parse text = .ok t ↔ Document.ofTokens scan.tokens = .ok t := by
  simp only [Document.parse, Document.parseChars, h]
  cases Document.ofTokens scan.tokens with
  | ok tree => simp
  | error s => simp

/-- The tokens of a text that is parsed are those of a derivation, and its tree is
the tree of that derivation. -/
theorem parse_eq_ok_iff (h : Scan.ofChars text.toList = .ok scan) :
    Document.parse text = .ok t ↔ ∃ d : Derivation, d.tokens = scan.tokens ∧ d.tree = t := by
  rw [parse_eq_ok_iff_ofTokens h]
  constructor
  · intro htree
    obtain ⟨d, htokens, rfl⟩ := Document.ofTokens_sound htree
    exact ⟨d, htokens.symm, rfl⟩
  · rintro ⟨d, htokens, rfl⟩
    rw [← htokens, Document.ofTokens_complete]

theorem exists_scan_of_parse (h : Document.parse text = .ok t) :
    ∃ scan, Scan.ofChars text.toList = .ok scan := by
  cases hscan : Scan.ofChars text.toList with
  | ok scan => exact ⟨scan, rfl⟩
  | error e =>
      rw [Document.parse, Document.parseChars, hscan] at h
      cases h

/-- A text that is parsed has a scan, and the tokens of that have a derivation,
whose tree was given. -/
theorem exists_derivation_of_parse (h : Document.parse text = .ok t) :
    ∃ (scan : Scan) (d : Derivation), Scan.ofChars text.toList = .ok scan ∧
      d.tokens = scan.tokens ∧ d.tree = t := by
  obtain ⟨scan, hscan⟩ := exists_scan_of_parse h
  obtain ⟨d, htokens, htree⟩ := (parse_eq_ok_iff hscan).mp h
  exact ⟨scan, d, hscan, htokens, htree⟩

/-- The parser accepts the scan of a text if and only if it is derivable, and
refuses it otherwise; the derivation is unique and prescribes the tree. -/
theorem parse_ok_iff_derivable (h : Scan.ofChars text.toList = .ok scan) :
    ((∃ t, Document.parse text = .ok t) ↔ ∃ d : Derivation, d.tokens = scan.tokens) ∧
    ((∃ e, Document.parse text = .error e) ↔ ¬ ∃ d : Derivation, d.tokens = scan.tokens) ∧
    ∀ d : Derivation, d.tokens = scan.tokens →
      Document.parse text = .ok d.tree ∧ ∀ d' : Derivation, d'.tokens = scan.tokens → d' = d := by
  have hiff : (∃ t, Document.parse text = .ok t) ↔ ∃ d : Derivation, d.tokens = scan.tokens := by
    constructor
    · rintro ⟨t, hparse⟩
      obtain ⟨d, htokens, -⟩ := (parse_eq_ok_iff h).mp hparse
      exact ⟨d, htokens⟩
    · rintro ⟨d, htokens⟩
      exact ⟨d.tree, (parse_eq_ok_iff h).mpr ⟨d, htokens, rfl⟩⟩
  refine ⟨hiff, ?_, ?_⟩
  · rw [← hiff]
    cases Document.parse text <;> simp
  · intro d htokens
    refine ⟨(parse_eq_ok_iff h).mpr ⟨d, htokens, rfl⟩, ?_⟩
    intro d' htokens'
    exact Derivation.tokens_injective (htokens'.trans htokens.symm)

/-- A rule whose leading alternative is empty, with a group that ends in a bar. -/
theorem parse_nestedBars :
    let scan : Scan :=
      { tokens :=
          [⟨.identifier, "rules", 0, 5, 1, 1⟩, ⟨.openBrace, "\x7b", 6, 7, 1, 7⟩,
           ⟨.identifier, "r", 8, 9, 1, 9⟩, ⟨.colon, ":", 9, 10, 1, 10⟩, ⟨.bar, "|", 11, 12, 1, 12⟩,
           ⟨.openParen, "(", 13, 14, 1, 14⟩, ⟨.identifier, "a", 14, 15, 1, 15⟩,
           ⟨.bar, "|", 16, 17, 1, 17⟩, ⟨.closeParen, ")", 17, 18, 1, 18⟩,
           ⟨.plus, "+", 18, 19, 1, 19⟩, ⟨.semicolon, ";", 19, 20, 1, 20⟩,
           ⟨.closeBrace, "\x7d", 21, 22, 1, 22⟩]
        stop := ⟨22, 1, 23⟩ }
    let group : Scalar :=
      .group ⟨⟨.openParen, "(", 13, 14, 1, 14⟩, rfl⟩
        (.item (.mk none (.name ⟨⟨.identifier, "a", 14, 15, 1, 15⟩, rfl⟩) none))
        [.bar ⟨⟨.bar, "|", 16, 17, 1, 17⟩, rfl⟩] ⟨⟨.closeParen, ")", 17, 18, 1, 18⟩, rfl⟩
    let rule : Rule :=
      { name := ⟨⟨.identifier, "r", 8, 9, 1, 9⟩, rfl⟩
        colon := ⟨⟨.colon, ":", 9, 10, 1, 10⟩, rfl⟩
        lead := []
        alternatives :=
          [⟨⟨⟨.bar, "|", 11, 12, 1, 12⟩, rfl⟩,
            [.mk none group (some (.many1 ⟨⟨.plus, "+", 18, 19, 1, 19⟩, rfl⟩))]⟩]
        semicolon := ⟨⟨.semicolon, ";", 19, 20, 1, 20⟩, rfl⟩ }
    let d : Derivation :=
      [.rules ⟨⟨.identifier, "rules", 0, 5, 1, 1⟩, rfl⟩ rfl ⟨⟨.openBrace, "\x7b", 6, 7, 1, 7⟩, rfl⟩
        [rule] ⟨⟨.closeBrace, "\x7d", 21, 22, 1, 22⟩, rfl⟩]
    Scan.ofChars "rules \x7b r: | (a |)+; \x7d".toList = .ok scan ∧
      Document.parse "rules \x7b r: | (a |)+; \x7d" = .ok d.tree := by
  intro scan group rule d
  have hscan : Scan.ofChars "rules \x7b r: | (a |)+; \x7d".toList = .ok scan := by cbv
  exact ⟨hscan, ((parse_ok_iff_derivable hscan).2.2 d rfl).1⟩

end Rulebook.Surface
