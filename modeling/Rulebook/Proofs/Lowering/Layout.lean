import Rulebook.Proofs.Lowering.Fields
import Rulebook.Proofs.Lowering.Numbers
import Rulebook.Proofs.Surface.Acceptance
import Rulebook.Proofs.Surface.Moved
import Rulebook.Proofs.Token.Respacing

/-! # Layout does not matter

What becomes of a text depends on the kinds and lexemes of its tokens alone. Two texts
that agree in these have the same grammar, or both are refused with the same fault; only
the place that is reported may be another one.
-/

namespace Rulebook

/-- The text in front of the first occurrence of a word; all of it if there is none. -/
def Text.before (word : List Char) : List Char → List Char
  | [] => []
  | c :: rest => if word <+: c :: rest then [] else c :: before word rest

/-- What follows a word plays no role for the text in front of its first occurrence. -/
theorem Text.before_append {word : List Char} (h : word ≠ []) (front rest : List Char) :
    before word (front ++ word ++ rest) = before word (front ++ word) := by
  induction front with
  | nil =>
      obtain ⟨c, more, rfl⟩ := List.exists_cons_of_ne_nil h
      have hfull : (c :: more) <+: c :: (more ++ rest) := List.prefix_append (c :: more) rest
      simp [before, hfull]
  | cons c front ih =>
      have hprefix : word <+: c :: (front ++ word ++ rest) ↔ word <+: c :: (front ++ word) := by
        constructor
        · intro hword
          refine List.prefix_of_prefix_length_le hword
            (List.prefix_append (c :: (front ++ word)) rest) ?_
          simp only [List.length_cons, List.length_append]
          omega
        · exact fun hword => hword.trans (List.prefix_append (c :: (front ++ word)) rest)
      simp only [List.cons_append, before, hprefix, ih]

namespace SyntaxError

/-- What a message says in front of the place. -/
def complaint (e : SyntaxError) : List Char := Text.before " at ".toList e.message.toList

/-- The fault alone decides what is said in front of the place. -/
theorem complaint_eq (e : SyntaxError) :
    e.complaint = Text.before " at ".toList (e.fault.text.toList ++ " at ".toList) := by
  have hmessage : ∃ rest, e.message.toList = e.fault.text.toList ++ " at ".toList ++ rest := by
    simp only [message, String.toList_append, List.append_assoc]
    exact ⟨_, rfl⟩
  obtain ⟨rest, hrest⟩ := hmessage
  rw [complaint, hrest, Text.before_append (by decide)]

end SyntaxError

/-- Two texts have one grammar, or both are refused with the same complaint. -/
def Agree (text text' : String) : Prop :=
  (∃ grammar, lowerText text = .ok grammar ∧ lowerText text' = .ok grammar) ∨
    ∃ e e', lowerText text = .error (.text e) ∧ lowerText text' = .error (.text e') ∧
      e.complaint = e'.complaint

/-! ## Texts with the same lexemes -/

theorem Scan.map_tokens_eq_of_lexemes {scan scan' : Scan} (h : scan.lexemes = scan'.lexemes) :
    scan.tokens.map (fun t => (t.kind, t.lexeme)) =
      scan'.tokens.map fun t => (t.kind, t.lexeme) := by
  rw [lexemes, lexemes, all, all, List.map_append, List.map_append] at h
  exact (List.append_left_inj _).mp h

/-- The grammar of a text is the value of the derivation of its tokens. -/
theorem lowerText_eq_ok {text : String} {scan : Scan} {d : Surface.Derivation}
    (hscan : Scan.ofChars text.toList = .ok scan) (htokens : d.tokens = scan.tokens) :
    lowerText text = .ok d.value := by
  have hparse := (Surface.parse_eq_ok_iff hscan).mpr ⟨d, htokens, rfl⟩
  have hnumbers := Lowering.numbersRead_scan hscan
  rw [← htokens] at hnumbers
  rw [lowerText, hparse]
  simp only [Lowering.lower_tree hnumbers]

/-- A text with a grammar has a derivation, whose value the grammar is. -/
theorem exists_derivation_of_lowerText {text : String} {grammar : Value}
    (h : lowerText text = .ok grammar) :
    ∃ (scan : Scan) (d : Surface.Derivation), Scan.ofChars text.toList = .ok scan ∧
      d.tokens = scan.tokens ∧ d.value = grammar := by
  cases hparse : Document.parse text with
  | error e =>
      rw [lowerText, hparse] at h
      cases h
  | ok t =>
      obtain ⟨scan, d, hscan, hd, -⟩ := Surface.exists_derivation_of_parse hparse
      exact ⟨scan, d, hscan, hd, Except.ok.inj ((lowerText_eq_ok hscan hd).symm.trans h)⟩

theorem lowerText_eq_error {text : String} {scan : Scan} {s : Document.Stuck}
    (hscan : Scan.ofChars text.toList = .ok scan) (h : Document.ofTokens scan.tokens = .error s) :
    lowerText text = .error (.text (s.toError text.toList scan)) := by
  simp only [lowerText, Document.parse, Document.parseChars, hscan, h]

/-- Tokens with the kinds and lexemes of a derivation have a derivation of their own, with
the same value. -/
theorem Surface.exists_derivation_of_lexemes {d : Surface.Derivation} {tokens : Document.Tokens}
    (h : d.tokens.map (fun t => (t.kind, t.lexeme)) = tokens.map fun t => (t.kind, t.lexeme)) :
    ∃ d' : Surface.Derivation, d'.tokens = tokens ∧ d'.value = d.value := by
  obtain ⟨_, htree⟩ := Document.exists_ofTokens_of_lexemes h (Document.ofTokens_complete d)
  obtain ⟨d', rfl, -⟩ := Document.ofTokens_sound htree
  exact ⟨d', rfl, (Surface.Derivation.value_eq_of_lexemes h).symm⟩

/-- Texts whose tokens have the same kinds and lexemes agree. -/
theorem agree_of_lexemes {text text' : String} {scan scan' : Scan}
    (hscan : Scan.ofChars text.toList = .ok scan) (hscan' : Scan.ofChars text'.toList = .ok scan')
    (h : scan.lexemes = scan'.lexemes) : Agree text text' := by
  have hmap := Scan.map_tokens_eq_of_lexemes h
  have hparse := Document.ofTokens_eq_of_lexemes .nowhere hmap.symm
  cases htokens : Document.ofTokens scan.tokens with
  | ok t =>
      cases htokens' : Document.ofTokens scan'.tokens with
      | ok t' =>
          obtain ⟨d, hd, -⟩ := Document.ofTokens_sound htokens
          obtain ⟨d', hd', -⟩ := Document.ofTokens_sound htokens'
          refine .inl ⟨d.value, lowerText_eq_ok hscan hd.symm, ?_⟩
          rw [hd, hd'] at hmap
          rw [Surface.Derivation.value_eq_of_lexemes hmap]
          exact lowerText_eq_ok hscan' hd'.symm
      | error s' =>
          rw [htokens, htokens'] at hparse
          cases hparse
  | error s =>
      cases htokens' : Document.ofTokens scan'.tokens with
      | ok t' =>
          rw [htokens, htokens'] at hparse
          cases hparse
      | error s' =>
          rw [htokens, htokens'] at hparse
          have hfault : s'.fault = s.fault := (Document.Stuck.mk.inj (Except.error.inj hparse)).1
          refine .inr ⟨_, _, lowerText_eq_error hscan htokens, lowerText_eq_error hscan' htokens', ?_⟩
          rw [SyntaxError.complaint_eq, SyntaxError.complaint_eq]
          change Text.before _ (s.fault.text.toList ++ _) = Text.before _ (s'.fault.text.toList ++ _)
          rw [hfault]

/-- A text agrees with every other one that has the same kinds and lexemes, and the text
with its lexemes on lines of their own is one of these. -/
theorem lowerText_ignores_layout {text : String} {scan : Scan}
    (h : Scan.ofChars text.toList = .ok scan) :
    (∀ text' scan', Scan.ofChars text'.toList = .ok scan' → scan'.lexemes = scan.lexemes →
      Agree text text') ∧
    ∃ after, Scan.ofChars scan.respaced.toList = .ok after ∧ after.lexemes = scan.lexemes ∧
      Agree text scan.respaced := by
  refine ⟨fun text' scan' h' heq => agree_of_lexemes h h' heq.symm, ?_⟩
  obtain ⟨after, hafter, heq⟩ := Scan.exists_of_respaced h
  exact ⟨after, hafter, heq, agree_of_lexemes h hafter heq.symm⟩

/-- A regular expression that begins like a comment, without layout and on a line of its
own. -/
theorem lowerText_ignores_layout_openRegex :
    Agree "t \x7b a: \x7b b: /*c/i , \x7d \x7d // d" "t\x7ba:\x7bb:/*c/i,\x7d\x7d" ∧
      Agree "t \x7b a: \x7b b: /*c/i , \x7d \x7d // d"
        "t\n\x7b\na\n:\n\x7b\nb\n:\n/*c/i\n,\n\x7d\n\x7d\n" := by
  have hscan : (Scan.ofChars "t \x7b a: \x7b b: /*c/i , \x7d \x7d // d".toList).map
      (fun scan => (scan.lexemes, scan.respaced)) =
        .ok ([(.identifier, "t"), (.openBrace, "\x7b"), (.identifier, "a"), (.colon, ":"),
          (.openBrace, "\x7b"), (.identifier, "b"), (.colon, ":"), (.regex, "/*c/i"),
          (.comma, ","), (.closeBrace, "\x7d"), (.closeBrace, "\x7d"), (.endOfText, "")],
          "t\n\x7b\na\n:\n\x7b\nb\n:\n/*c/i\n,\n\x7d\n\x7d\n") := by
    cbv
  have hclose : (Scan.ofChars "t\x7ba:\x7bb:/*c/i,\x7d\x7d".toList).map Scan.lexemes =
        .ok [(.identifier, "t"), (.openBrace, "\x7b"), (.identifier, "a"), (.colon, ":"),
          (.openBrace, "\x7b"), (.identifier, "b"), (.colon, ":"), (.regex, "/*c/i"),
          (.comma, ","), (.closeBrace, "\x7d"), (.closeBrace, "\x7d"), (.endOfText, "")] := by
    cbv
  obtain ⟨scan, h, heq⟩ := exists_of_map_eq_ok hscan
  obtain ⟨scan', h', hlexemes'⟩ := exists_of_map_eq_ok hclose
  obtain ⟨hlexemes, hrespaced⟩ := Prod.mk.inj heq
  obtain ⟨hall, after, -, -, hafter⟩ := lowerText_ignores_layout h
  rw [hrespaced] at hafter
  exact ⟨hall _ scan' h' (hlexemes'.trans hlexemes.symm), hafter⟩

end Rulebook
