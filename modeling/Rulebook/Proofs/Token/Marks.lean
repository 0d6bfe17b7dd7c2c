import Rulebook.Proofs.Token.Respacing

/-! # Punctuation put into a text

A mark of punctuation may be put directly in front of a token or directly behind one, and
is one more token there. The tokens in front of it stay as they are, those behind it only
move. The star is left out, since it might close a comment or open one.
-/

namespace Rulebook

open Text
open Piece (closing)
open Sequence (StopsBefore)

/-! ## Marks -/

/-- The kinds of token that are a single character, but for the star. -/
def TokenKind.marks : List TokenKind :=
  [.colon, .semicolon, .comma, .bar, .openParen, .closeParen, .openBrace, .closeBrace, .equals,
   .question, .plus]

namespace Piece

variable {kind : TokenKind}

theorem first?_mark (h : kind ∈ TokenKind.marks) (rest : List Char) :
    first? (kind.mark :: rest) = some ⟨.token kind, [kind.mark], rest⟩ := by
  simp only [TokenKind.marks, List.mem_cons, List.not_mem_nil, or_false] at h
  rcases h with rfl | rfl | rfl | rfl | rfl | rfl | rfl | rfl | rfl | rfl | rfl <;> rfl

/-- Only a line comment is prolonged by a mark. -/
theorem prolongs_mark (h : kind ∈ TokenKind.marks) {piece : PieceKind}
    (hpiece : piece ≠ .layout .lineComment) : prolongs piece kind.mark = false := by
  have hplain : ∀ k ∈ TokenKind.marks, isBlank k.mark = false ∧ isIdentifierPart k.mark = false ∧
      (isAsciiDigit k.mark || k.mark = '.') = false ∧ isFlag k.mark = false := by
    decide
  obtain ⟨hblank, hpart, hnumber, hflag⟩ := hplain kind h
  unfold prolongs
  split
  · exact hblank
  · exact absurd rfl hpiece
  · exact hpart
  · exact hnumber
  · exact hflag
  · rfl

/-- A star and a slash do not reach across a mark. -/
theorem closing_infix_of_mark (h : kind ∈ TokenKind.marks) {front back : List Char}
    (hclosing : closing <:+: front ++ kind.mark :: back) :
    closing <:+: front ∨ closing <:+: back := by
  have hmark : ∀ k ∈ TokenKind.marks, k.mark ≠ '*' ∧ k.mark ≠ '/' := by decide
  exact closing_infix_of_between (hmark kind h) hclosing

end Piece

/-! ## A mark between segments -/

namespace Cut

variable {kind : TokenKind} {text : List Char} {front back : List Segment}

/-- A line comment reaches up to the end of its line, so no token follows it directly. -/
theorem ne_lineComment {s : Segment} {lexeme : List Char}
    (h : Cut text (front ++ s :: ⟨.token kind, lexeme⟩ :: back)) :
    s.kind ≠ .layout .lineComment := by
  intro hcomment
  obtain ⟨_, _, hbehind⟩ := h.exists_rest
  obtain ⟨rest, hfirst, hrest⟩ := cons_iff.mp hbehind
  have hstop := Piece.stopsBefore_rest hfirst hrest.eq_nil_or_isSome
  obtain ⟨_, htoken, -⟩ := cons_iff.mp hrest
  cases rest with
  | nil => cases htoken
  | cons c more =>
      rw [hcomment] at hstop
      obtain rfl : c = '\n' := by simpa [Piece.prolongs] using hstop c rfl
      cases htoken

/-- A mark between two segments is a segment of its own, unless a line comment takes it in. -/
theorem insert_mark (hkind : kind ∈ TokenKind.marks) (h : Cut text (front ++ back))
    (hlast : ∀ s ∈ front.getLast?, s.kind ≠ .layout .lineComment) :
    ∃ rest, text = Segment.join front ++ rest ∧
      Cut (Segment.join front ++ kind.mark :: rest)
        (front ++ ⟨.token kind, [kind.mark]⟩ :: back) := by
  obtain ⟨rest, rfl, hback⟩ := h.exists_rest
  have hmark : Cut (kind.mark :: rest) (⟨.token kind, [kind.mark]⟩ :: back) :=
    .cons (Piece.first?_mark hkind rest) hback
  refine ⟨rest, rfl, h.replace_rest hmark ?_ ?_⟩
  · exact fun s hs => Sequence.stopsBefore_cons.mpr (Piece.prolongs_mark hkind (hlast s hs))
  · rintro ahead tail behind rfl hclosing
    rw [List.append_assoc, List.cons_append] at h
    have hnever := h.not_closing_behind_regex
    rw [Segment.join_append, hback.join_eq, ← List.append_assoc] at hnever
    rw [← List.append_assoc] at hclosing
    rcases Piece.closing_infix_of_mark hkind hclosing with hbefore | hafter
    · exact hnever (hbefore.trans (List.prefix_append _ _).isInfix)
    · exact hnever (hafter.trans (List.suffix_append _ _).isInfix)

end Cut

/-! ## A mark between tokens -/

/-- A text with one more character at a place. -/
def Text.put (c : Char) (place : Nat) (text : List Char) : List Char :=
  text.take place ++ c :: text.drop place

/-- A place is right behind the last of some tokens, or right in front of the first of the
tokens that follow them. -/
def Token.Between (front back : List (Token TokenKind)) (place : Nat) : Prop :=
  (∃ t ∈ front.getLast?, t.stop = place) ∨ ∃ t ∈ back.head?, t.start = place

/-- A place between tokens splits the segments there, and no line comment ends there. -/
theorem Cut.exists_split {text : List Char} {segments : List Segment} (h : Cut text segments)
    {front back : List (Token TokenKind)} {place : Nat}
    (hsplit : Segment.tokens .start segments = front ++ back)
    (hplace : Token.Between front back place) :
    ∃ ahead behind, segments = ahead ++ behind ∧ place = (Segment.join ahead).length ∧
      Segment.tokens .start ahead = front ∧
      ∀ s ∈ ahead.getLast?, s.kind ≠ .layout .lineComment := by
  rcases hplace with ⟨t, ht, rfl⟩ | ⟨t, ht, rfl⟩
  · obtain ⟨first, rfl⟩ := List.getLast?_eq_some_iff.mp ht
    rw [List.append_assoc, List.singleton_append] at hsplit
    obtain ⟨ahead, kind, lexeme, behind, rfl, rfl, rfl, -⟩ := Segment.exists_of_tokens_eq hsplit
    refine ⟨ahead ++ [⟨.token kind, lexeme⟩], behind, by simp, ?_, ?_, by simp⟩
    · rw [Token.stop_ofText, Segment.join_append, Segment.join_cons, Segment.join_nil,
        List.append_nil]
    · rw [Segment.tokens_append]
      rfl
  · obtain ⟨more, rfl⟩ := List.head?_eq_some_iff.mp ht
    obtain ⟨ahead, kind, lexeme, behind, rfl, rfl, rfl, -⟩ := Segment.exists_of_tokens_eq hsplit
    refine ⟨ahead, ⟨.token kind, lexeme⟩ :: behind, rfl, ?_, rfl, ?_⟩
    · rw [Token.start_ofText]
    · intro s hs
      obtain ⟨first, rfl⟩ := List.getLast?_eq_some_iff.mp hs
      rw [List.append_assoc, List.singleton_append] at h
      exact h.ne_lineComment

/-- A mark directly behind a token or in front of one is a token there. The tokens in front
of it stay as they are, and those behind it keep their kinds and lexemes. -/
theorem Scan.insert_mark (kind : TokenKind) {text : List Char} {scan : Scan}
    (h : ofChars text = .ok scan) (hkind : kind ∈ TokenKind.marks)
    {front back : List (Token TokenKind)} {place : Nat} (hsplit : scan.tokens = front ++ back)
    (hplace : Token.Between front back place) :
    ∃ after t moved, ofChars (Text.put kind.mark place text) = .ok after ∧
      after.tokens = front ++ t :: moved ∧ (t.kind, t.lexeme) = (kind, kind.mark.toString) ∧
      moved.map (fun t => (t.kind, t.lexeme)) = back.map fun t => (t.kind, t.lexeme) := by
  obtain ⟨segments, hcut, rfl⟩ := ofChars_eq_ok_iff.mp h
  obtain ⟨ahead, behind, rfl, rfl, rfl, hlast⟩ := hcut.exists_split hsplit hplace
  obtain ⟨rest, rfl, hmarked⟩ := hcut.insert_mark hkind hlast
  rw [Text.put, List.take_left, List.drop_left]
  refine ⟨_, _, _, ofChars_eq_ok_iff.mpr ⟨_, hmarked, rfl⟩, Segment.tokens_append _ _ _, rfl, ?_⟩
  rw [Segment.tokens_append] at hsplit
  rw [Segment.map_tokens, ← List.append_cancel_left hsplit, Segment.map_tokens]

end Rulebook
