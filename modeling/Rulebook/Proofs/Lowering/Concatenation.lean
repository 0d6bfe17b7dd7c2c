import Mathlib.Tactic
import Rulebook.Grammar.Query
import Rulebook.Proofs.Lowering.Layout
import Rulebook.Proofs.Token.Concatenation

/-! # Documents in a row

A document may follow another one after a newline. The last field of the first one takes
nothing of the second one with it, so the fields of both make up the grammar.
-/

namespace Rulebook

theorem Value.tokens_append (fields more : List Value) :
    tokens (fields ++ more) = tokens fields ++ tokens more := List.flatMap_append

theorem Value.rules_append (fields more : List Value) :
    rules (fields ++ more) = rules fields ++ rules more := List.flatMap_append

/-- A derivation behind another one derives the tokens of both. -/
theorem Surface.Derivation.tokens_append (d more : Derivation) :
    Derivation.tokens (d ++ more) = d.tokens ++ more.tokens := List.flatMap_append

/-- Two documents with a newline between them are a document: its tokens are those of the
first one and, further on, those of the second one, and so are its fields. A regular
expression in the first one that begins like a comment might find its end in the second
one. -/
theorem lowerText_append_newline {text text' : String} {t t' : Tree} {scan scan' : Scan}
    (hscan : Scan.ofChars text.toList = .ok scan) (hscan' : Scan.ofChars text'.toList = .ok scan')
    (h : Document.parse text = .ok t) (h' : Document.parse text' = .ok t')
    (hopen : ∀ u ∈ scan.tokens, u.kind = .regex → ¬ ['/', '*'] <+: u.lexeme.toList) :
    (∃ after, Scan.ofChars (text ++ "\n" ++ text').toList = .ok after ∧
      after.all = scan.tokens ++ scan'.all.map
        (Token.moved (Span.shift (text.length + 1) (1 + text.toList.count '\n')))) ∧
    (∃ both, Document.parse (text ++ "\n" ++ text') = .ok both) ∧
    ∃ fields fields', lowerText text = .ok (.grammar fields) ∧
      lowerText text' = .ok (.grammar fields') ∧
      lowerText (text ++ "\n" ++ text') = .ok (.grammar (fields ++ fields')) ∧
      Value.tokens (fields ++ fields') = Value.tokens fields ++ Value.tokens fields' ∧
      Value.rules (fields ++ fields') = Value.rules fields ++ Value.rules fields' := by
  obtain ⟨d, htokens, -⟩ := (Surface.parse_eq_ok_iff hscan).mp h
  obtain ⟨d', htokens', -⟩ := (Surface.parse_eq_ok_iff hscan').mp h'
  have htext : (text ++ "\n" ++ text').toList = text.toList ++ '\n' :: text'.toList := by
    simp [String.toList_append]
  obtain ⟨after, hafter, hall⟩ := Scan.all_append_newline hscan hscan' hopen
  rw [← htext] at hafter
  -- The second derivation goes on where the first one stops.
  let further := Span.shift (text.length + 1) (1 + text.toList.count '\n')
  let both : Surface.Derivation := d ++ d'.moved further
  have hboth : both.tokens = after.tokens := by
    rw [Scan.all, Scan.all, List.map_append, ← List.append_assoc] at hall
    have hkept := List.append_inj_left' hall rfl
    rw [hkept, Surface.Derivation.tokens_append, d'.tokens_moved, htokens, htokens']
    rfl
  refine ⟨⟨after, hafter, hall⟩,
    ⟨_, (Surface.parse_eq_ok_iff hafter).mpr ⟨both, hboth, rfl⟩⟩,
    d.map Surface.Field.value, d'.map Surface.Field.value, lowerText_eq_ok hscan htokens,
    lowerText_eq_ok hscan' htokens', ?_, Value.tokens_append _ _, Value.rules_append _ _⟩
  have hvalue : both.value = .grammar (d.map Surface.Field.value ++ d'.map Surface.Field.value) := by
    have hmoved := d'.value_moved further
    rw [Surface.Derivation.value, Surface.Derivation.value, Value.grammar.injEq] at hmoved
    rw [Surface.Derivation.value, List.map_append, hmoved]
  rw [← hvalue]
  exact lowerText_eq_ok hafter hboth

/-- A line comment behind a regular expression with a flag ends at the newline, and a
block of rules follows. -/
theorem lowerText_append_newline_flaggedRegex :
    ∃ after fields fields',
      Scan.ofChars "a: /b/i // c\nrules \x7b r: a; \x7d".toList = .ok after ∧
      after.all =
        [⟨.identifier, "a", 0, 1, 1, 1⟩, ⟨.colon, ":", 1, 2, 1, 2⟩, ⟨.regex, "/b/i", 3, 7, 1, 4⟩,
         ⟨.identifier, "rules", 13, 18, 2, 1⟩, ⟨.openBrace, "\x7b", 19, 20, 2, 7⟩,
         ⟨.identifier, "r", 21, 22, 2, 9⟩, ⟨.colon, ":", 22, 23, 2, 10⟩,
         ⟨.identifier, "a", 24, 25, 2, 12⟩, ⟨.semicolon, ";", 25, 26, 2, 13⟩,
         ⟨.closeBrace, "\x7d", 27, 28, 2, 15⟩, ⟨.endOfText, "", 28, 28, 2, 16⟩] ∧
      lowerText "a: /b/i // c" = .ok (.grammar fields) ∧
      lowerText "rules \x7b r: a; \x7d" = .ok (.grammar fields') ∧
      lowerText "a: /b/i // c\nrules \x7b r: a; \x7d" = .ok (.grammar (fields ++ fields')) := by
  have hscan : Scan.ofChars "a: /b/i // c".toList = .ok
      { tokens :=
          [⟨.identifier, "a", 0, 1, 1, 1⟩, ⟨.colon, ":", 1, 2, 1, 2⟩, ⟨.regex, "/b/i", 3, 7, 1, 4⟩]
        stop := ⟨12, 1, 13⟩ } := by cbv
  have hscan' : Scan.ofChars "rules \x7b r: a; \x7d".toList = .ok
      { tokens :=
          [⟨.identifier, "rules", 0, 5, 1, 1⟩, ⟨.openBrace, "\x7b", 6, 7, 1, 7⟩,
           ⟨.identifier, "r", 8, 9, 1, 9⟩, ⟨.colon, ":", 9, 10, 1, 10⟩,
           ⟨.identifier, "a", 11, 12, 1, 12⟩, ⟨.semicolon, ";", 12, 13, 1, 13⟩,
           ⟨.closeBrace, "\x7d", 14, 15, 1, 15⟩]
        stop := ⟨15, 1, 16⟩ } := by cbv
  obtain ⟨t, h⟩ := exists_of_isOk
    (show (Document.parse "a: /b/i // c").isOk by cbv)
  obtain ⟨t', h'⟩ := exists_of_isOk
    (show (Document.parse "rules \x7b r: a; \x7d").isOk by cbv)
  obtain ⟨⟨after, hafter, hall⟩, -, fields, fields', hfirst, hsecond, hboth, -, -⟩ :=
    lowerText_append_newline hscan hscan' h h' (by decide)
  exact ⟨after, fields, fields', hafter, hall, hfirst, hsecond, hboth⟩

end Rulebook
