import Rulebook.Proofs.Token.Lexemes

/-! # The lexemes of a text on lines of their own

A lexeme is the same whatever stood around it, so the lexemes of a text may be spaced
anew. The only one that looks further ahead is a regular expression that begins like a
comment: nothing behind it closed it as one, and newlines close nothing.
-/

namespace Rulebook

open Text
open Piece (closing)

/-- The lexemes of all tokens, with newlines between them. -/
def Scan.respaced (scan : Scan) : String := "\n".intercalate (scan.all.map Token.lexeme)

/-- Texts between newlines, the last of which is empty, are lines. -/
theorem Text.intercalate_newline (texts : List (List Char)) :
    ['\n'].intercalate (texts ++ [[]]) = texts.flatMap (· ++ ['\n']) := by
  induction texts with
  | nil => rfl
  | cons text rest ih =>
      obtain ⟨next, more, hmore⟩ := List.exists_cons_of_ne_nil
        (List.append_ne_nil_of_right_ne_nil rest (List.cons_ne_nil ([] : List Char) []))
      rw [hmore] at ih
      rw [List.cons_append, hmore, List.intercalate_cons_cons, ih, List.flatMap_cons]

/-- The end of the text has an empty lexeme, so every other one ends its line. -/
theorem Scan.toList_respaced (scan : Scan) :
    scan.respaced.toList = linesOf (scan.tokens.map fun t => (t.kind, t.lexeme)) := by
  rw [respaced, String.toList_intercalate, all, List.map_append, List.map_append, linesOf,
    List.flatMap_map]
  refine (Text.intercalate_newline _).trans ?_
  rw [List.flatMap_map, List.flatMap_map]

namespace Piece

/-- A star and a slash do not reach across another character. -/
theorem closing_infix_of_between {c : Char} (hc : c ≠ '*' ∧ c ≠ '/') {front back : List Char}
    (h : closing <:+: front ++ c :: back) : closing <:+: front ∨ closing <:+: back := by
  have hsplit : closing <:+: (front ++ [c]) ++ back := by simpa using h
  rcases closing_infix_of_append (by simpa using hc.1) hsplit with hfront | hback
  · rcases List.infix_concat_iff.mp hfront with hend | hwithin
    · have hlast := hend.getLast (by decide)
      simp only [closing, List.getLast_cons_cons, List.getLast_singleton,
        List.getLast_append_singleton] at hlast
      exact absurd hlast.symm hc.2
    · exact .inl hwithin
  · exact .inr hback

/-- A star and a slash are not closed across a newline. -/
theorem closing_infix_of_lines {front back : List Char} (h : closing <:+: front ++ '\n' :: back) :
    closing <:+: front ∨ closing <:+: back :=
  closing_infix_of_between (by decide) h

theorem exists_closing_of_linesOf {lexemes : List (TokenKind × String)}
    (h : closing <:+: linesOf lexemes) : ∃ l ∈ lexemes, closing <:+: l.2.toList := by
  induction lexemes with
  | nil => exact absurd h (by decide)
  | cons l rest ih =>
      rw [linesOf, List.flatMap_cons, List.append_assoc] at h
      rcases closing_infix_of_lines h with hfirst | hrest
      · exact ⟨l, List.mem_cons_self, hfirst⟩
      · obtain ⟨l', hl', hwithin⟩ := ih hrest
        exact ⟨l', List.mem_cons_of_mem _ hl', hwithin⟩

end Piece

/-! ## Lexemes among segments -/

/-- Every lexeme among segments stands in their text. -/
theorem Segment.infix_join_of_mem_lexemes {segments : List Segment} {l : TokenKind × String}
    (h : l ∈ lexemes segments) : l.2.toList <:+: join segments := by
  obtain ⟨s, hs, hl⟩ := List.mem_filterMap.mp h
  obtain ⟨front, back, rfl⟩ := List.append_of_mem hs
  obtain ⟨kind, text⟩ := s
  cases kind with
  | layout => cases hl
  | token kind =>
      cases hl
      exact ⟨join front, join back, by simp⟩

/-- A lexeme among segments is that of a segment, and so are the ones behind it. -/
theorem Segment.exists_of_lexemes_eq {segments : List Segment}
    {ahead behind : List (TokenKind × String)} {kind : TokenKind} {text : String}
    (h : lexemes segments = ahead ++ (kind, text) :: behind) :
    ∃ front back, segments = front ++ ⟨.token kind, text.toList⟩ :: back ∧
      lexemes back = behind := by
  obtain ⟨front, rest, rfl, -, hrest⟩ := List.filterMap_eq_append_iff.mp h
  obtain ⟨layout, s, back, rfl, -, hs, hback⟩ := List.filterMap_eq_cons_iff.mp hrest
  obtain ⟨piece, lexeme⟩ := s
  cases piece with
  | layout => cases hs
  | token =>
      cases hs
      exact ⟨front ++ layout, back, by simp, hback⟩

namespace Cut

variable {text : List Char} {segments : List Segment}

/-- Every lexeme of a text is one by itself. -/
theorem isLexeme (h : Cut text segments) : ∀ l ∈ Segment.lexemes segments, IsLexeme l.1 l.2 := by
  rintro ⟨kind, lexeme⟩ hl
  obtain ⟨ahead, behind, hsplit⟩ := List.append_of_mem hl
  obtain ⟨front, back, rfl, -⟩ := Segment.exists_of_lexemes_eq hsplit
  obtain ⟨_, _, hbehind⟩ := h.exists_rest
  obtain ⟨rest, hfirst, -⟩ := cons_iff.mp hbehind
  have halone := Piece.first?_before hfirst (Sequence.stopsBefore_nil _) ?_
  · rwa [List.append_nil] at halone
  · rintro tail hkind htext hclosing
    cases hkind
    rw [List.append_nil] at hclosing
    rw [show lexeme.toList = '/' :: '*' :: tail from htext] at h
    exact h.not_closing_behind_regex (hclosing.trans (List.prefix_append _ _).isInfix)

/-- A regular expression that begins like a comment is not closed as one by the lexemes
behind it. -/
theorem not_closing_linesOf (h : Cut text segments) {ahead behind : List (TokenKind × String)}
    {lexeme : String} {tail : List Char}
    (hsplit : Segment.lexemes segments = ahead ++ (.regex, lexeme) :: behind)
    (htail : lexeme.toList = '/' :: '*' :: tail) :
    ¬ closing <:+: tail ++ '\n' :: linesOf behind := by
  obtain ⟨front, back, rfl, rfl⟩ := Segment.exists_of_lexemes_eq hsplit
  rw [htail] at h
  have hnever := h.not_closing_behind_regex
  intro hclosing
  rcases Piece.closing_infix_of_lines hclosing with hwithin | hlines
  · exact hnever (hwithin.trans (List.prefix_append _ _).isInfix)
  · obtain ⟨l, hl, hlexeme⟩ := Piece.exists_closing_of_linesOf hlines
    exact hnever ((hlexeme.trans (Segment.infix_join_of_mem_lexemes hl)).trans
      (List.suffix_append _ _).isInfix)

end Cut

/-- Every token of a scan has a lexeme of its kind. -/
theorem Scan.isLexeme {text : List Char} {scan : Scan} (h : ofChars text = .ok scan) :
    ∀ t ∈ scan.tokens, IsLexeme t.kind t.lexeme := by
  obtain ⟨segments, hcut, rfl⟩ := ofChars_eq_ok_iff.mp h
  intro t ht
  refine hcut.isLexeme (t.kind, t.lexeme) ?_
  rw [← Segment.map_tokens .start]
  exact List.mem_map_of_mem ht

/-- The lexemes of a text on lines of their own are scanned to the same tokens but for
their places. -/
theorem Scan.exists_of_respaced {text : List Char} {scan : Scan} (h : ofChars text = .ok scan) :
    ∃ after, ofChars scan.respaced.toList = .ok after ∧ after.lexemes = scan.lexemes := by
  obtain ⟨segments, hcut, rfl⟩ := ofChars_eq_ok_iff.mp h
  rw [toList_respaced, Segment.map_tokens]
  obtain ⟨after, hafter, hlexemes⟩ := exists_of_lexemes hcut.isLexeme
    fun ahead lexeme tail behind hsplit htail => hcut.not_closing_linesOf hsplit htail
  refine ⟨after, hafter, ?_⟩
  rw [lexemes, lexemes, all, all, List.map_append, List.map_append, hlexemes, Segment.map_tokens]
  rfl

end Rulebook
