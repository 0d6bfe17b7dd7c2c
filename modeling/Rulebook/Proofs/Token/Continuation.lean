import Rulebook.Proofs.Token.Concatenation
import Rulebook.Proofs.Token.Respacing

/-! # Going on behind a token

A text may be broken off behind any of its tokens and go on with other lexemes, on lines
of their own. What stands in front is cut as before: a newline prolongs no piece, and a
regular expression that begins like a comment stays open if these lexemes close nothing.
-/

namespace Rulebook

open Text
open Piece (closing)

/-- The first tokens among segments are those of the first segments. -/
theorem Segment.exists_take_tokens (count : Nat) (place : Position) (segments : List Segment) :
    ∃ front back, segments = front ++ back ∧
      tokens place front = (tokens place segments).take count := by
  induction segments generalizing count place with
  | nil => exact ⟨[], [], rfl, List.take_nil.symm⟩
  | cons s more ih =>
      cases count with
      | zero => exact ⟨[], s :: more, rfl, List.take_zero.symm⟩
      | succ count =>
          obtain ⟨kind, text⟩ := s
          cases kind with
          | layout kind =>
              obtain ⟨front, back, rfl, htokens⟩ := ih (count + 1) (place.advance text)
              exact ⟨⟨.layout kind, text⟩ :: front, back, rfl, htokens⟩
          | token kind =>
              obtain ⟨front, back, rfl, htokens⟩ := ih count (place.advance text)
              exact ⟨⟨.token kind, text⟩ :: front, back, rfl, congrArg (_ :: ·) htokens⟩

/-- Segments are cut as before in front of a newline and lines that close nothing. -/
theorem Cut.replace_lines {front back more : List Segment} {rest : List Char}
    {lexemes : List (TokenKind × String)} (h : Cut (Segment.join front ++ rest) (front ++ back))
    (hmore : Cut (linesOf lexemes) more) (hclosing : ∀ l ∈ lexemes, ¬ closing <:+: l.2.toList) :
    Cut (Segment.join front ++ '\n' :: linesOf lexemes)
      (front ++ ⟨.layout .newline, ['\n']⟩ :: more) := by
  have hline : Cut ('\n' :: linesOf lexemes) (⟨.layout .newline, ['\n']⟩ :: more) := .cons rfl hmore
  refine h.replace_rest hline
    (fun s _ => Sequence.stopsBefore_cons.mpr (Piece.prolongs_newline_eq_false s.kind)) ?_
  intro ahead tail behind hfront hclosed
  rw [← List.append_assoc] at hclosed
  rcases Piece.closing_infix_of_lines hclosed with hwithin | hlines
  · rw [hfront, List.append_assoc, List.cons_append] at h
    have hnever := h.not_closing_behind_regex
    rw [Segment.join_append, ← List.append_assoc] at hnever
    exact hnever (hwithin.trans (List.prefix_append _ _).isInfix)
  · obtain ⟨l, hl, hlexeme⟩ := Piece.exists_closing_of_linesOf hlines
    exact hclosing l hl hlexeme

/-- The first tokens of a text, as they stand there, are followed in some text by tokens
with any lexemes that close nothing. -/
theorem Scan.exists_of_take {text : List Char} {scan : Scan} (h : ofChars text = .ok scan)
    (count : Nat) {lexemes : List (TokenKind × String)}
    (hlexemes : ∀ l ∈ lexemes, IsLexeme l.1 l.2)
    (hclosing : ∀ l ∈ lexemes, ¬ closing <:+: l.2.toList) :
    ∃ text' scan' more, ofChars text' = .ok scan' ∧
      scan'.tokens = scan.tokens.take count ++ more ∧
      more.map (fun t => (t.kind, t.lexeme)) = lexemes := by
  obtain ⟨segments, hcut, rfl⟩ := ofChars_eq_ok_iff.mp h
  obtain ⟨front, back, rfl, hfront⟩ := Segment.exists_take_tokens count .start segments
  obtain ⟨rest, rfl, -⟩ := hcut.exists_rest
  obtain ⟨lines, hlines, hmap⟩ := exists_of_lexemes hlexemes
    fun ahead lexeme tail behind heq htail hclosed => by
      rcases Piece.closing_infix_of_lines hclosed with hwithin | hbehind
      · refine hclosing (.regex, lexeme) (by simp [heq]) ?_
        rw [htail]
        exact hwithin.trans (List.suffix_append ['/', '*'] tail).isInfix
      · obtain ⟨l, hl, hlexeme⟩ := Piece.exists_closing_of_linesOf hbehind
        exact hclosing l (by simp [heq, hl]) hlexeme
  obtain ⟨more, hmore, rfl⟩ := ofChars_eq_ok_iff.mp hlines
  refine ⟨_, _, Segment.tokens ((Position.start.advance (Segment.join front)).advance ['\n']) more,
    ofChars_eq_ok_iff.mpr ⟨_, hcut.replace_lines hmore hclosing, rfl⟩, ?_, ?_⟩
  · rw [Segment.tokens_append, hfront, Segment.tokens]
  · rw [Segment.map_tokens, ← hmap, Segment.map_tokens]

end Rulebook
