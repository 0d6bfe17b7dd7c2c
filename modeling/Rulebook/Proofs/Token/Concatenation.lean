import Rulebook.Proofs.Token.Comments
import Rulebook.Proofs.Tree.Moved

/-! # Scanning one text behind another

Two texts with a newline between them are scanned one after the other: the newline
prolongs nothing in front of it, and the places of the second text are counted on from
it. Only a regular expression that begins like a comment could reach across.
-/

namespace Rulebook

open Text
open Piece (closing)
open Sequence (StopsBefore)

/-- The same characters, so many offsets and lines further on. -/
def Span.shift (offsets lines : Nat) (s : Span) : Span :=
  ⟨s.start + offsets, s.stop + offsets, s.line + lines, s.column⟩

namespace Text.Position

/-- The same place, so many offsets and lines further on. -/
def shift (offsets lines : Nat) (p : Position) : Position :=
  ⟨p.offset + offsets, p.line + lines, p.column⟩

variable (offsets lines : Nat) (p : Position)

theorem step_shift (c : Char) : (p.shift offsets lines).step c = (p.step c).shift offsets lines := by
  unfold step
  split
  · simp only [shift, Position.mk.injEq, and_true]
    omega
  · simp only [shift, Position.mk.injEq, and_true]
    omega

theorem advance_shift (text : List Char) :
    (p.shift offsets lines).advance text = (p.advance text).shift offsets lines := by
  induction text generalizing p with
  | nil => rfl
  | cons c rest ih => rw [advance_cons, advance_cons, step_shift, ih]

/-- Behind a text and a newline a new text starts. -/
theorem start_advance_newline (text : List Char) :
    (start.advance text).step '\n' = start.shift (text.length + 1) (1 + text.count '\n') := by
  rw [step, if_pos rfl, advance_offset, start_advance_line]
  simp only [shift, start, Position.mk.injEq, and_true]
  omega

end Text.Position

theorem Token.ofText_shift (offsets lines : Nat) (kind : TokenKind) (place : Position)
    (text : List Char) : Token.ofText kind (place.shift offsets lines) text =
      (Token.ofText kind place text).moved (Span.shift offsets lines) := by
  simp only [ofText, moved, span, Span.shift, Position.shift, Token.mk.injEq, true_and, and_true]
  omega

/-- Segments further on give the same tokens further on. -/
theorem Segment.tokens_shift (offsets lines : Nat) (place : Position) (segments : List Segment) :
    tokens (place.shift offsets lines) segments =
      (tokens place segments).map (Token.moved (Span.shift offsets lines)) := by
  induction segments generalizing place with
  | nil => rfl
  | cons s more ih =>
      rw [tokens, tokens, Position.advance_shift, ih]
      cases s.kind with
      | layout => rfl
      | token kind => exact congrArg (· :: _) (Token.ofText_shift offsets lines kind place s.text)

/-- A newline prolongs no piece at all. -/
theorem Piece.prolongs_newline_eq_false (kind : PieceKind) : prolongs kind '\n' = false := by
  cases kind with
  | layout kind => cases kind <;> rfl
  | token kind => cases kind <;> rfl

/-- A text is cut as before in front of a newline, unless a regular expression in it
begins like a comment. -/
theorem Cut.append_newline {text text' : List Char} {front back : List Segment}
    (h : Cut text front) (h' : Cut text' back)
    (hopen : ∀ s ∈ front, s.kind = .token .regex → ¬ ['/', '*'] <+: s.text) :
    Cut (text ++ '\n' :: text') (front ++ ⟨.layout .newline, ['\n']⟩ :: back) := by
  have hline : Cut ('\n' :: text') (⟨.layout .newline, ['\n']⟩ :: back) := .cons rfl h'
  have hfront : Cut (Segment.join front ++ []) (front ++ []) := by
    rwa [List.append_nil, List.append_nil, h.join_eq]
  have hreplaced := hfront.replace_rest hline
    (fun s _ => Sequence.stopsBefore_cons.mpr (Piece.prolongs_newline_eq_false s.kind)) ?_
  · rwa [h.join_eq] at hreplaced
  · rintro ahead tail behind rfl
    exact absurd (List.prefix_append ['/', '*'] tail)
      (hopen ⟨.token .regex, '/' :: '*' :: tail⟩ (by simp) rfl)

/-- The tokens of two texts with a newline between them are those of the first one and
then those of the second one, further on by the first text and the newline. -/
theorem Scan.all_append_newline {text text' : List Char} {scan scan' : Scan}
    (h : ofChars text = .ok scan) (h' : ofChars text' = .ok scan')
    (hopen : ∀ t ∈ scan.tokens, t.kind = .regex → ¬ ['/', '*'] <+: t.lexeme.toList) :
    ∃ after, ofChars (text ++ '\n' :: text') = .ok after ∧
      after.all = scan.tokens ++
        scan'.all.map (Token.moved (Span.shift (text.length + 1) (1 + text.count '\n'))) := by
  obtain ⟨front, hcut, rfl⟩ := ofChars_eq_ok_iff.mp h
  obtain ⟨back, hcut', rfl⟩ := ofChars_eq_ok_iff.mp h'
  have hfront : ∀ s ∈ front, s.kind = .token .regex → ¬ ['/', '*'] <+: s.text := by
    rintro ⟨kind, lexeme⟩ hs rfl hprefix
    obtain ⟨ahead, behind, rfl⟩ := List.append_of_mem hs
    refine hopen _ (Segment.mem_tokens_iff.mpr ⟨ahead, .regex, lexeme, behind, rfl, rfl⟩) rfl ?_
    simpa [Token.ofText] using hprefix
  refine ⟨_, ofChars_eq_ok_iff.mpr ⟨_, hcut.append_newline hcut' hfront, rfl⟩, ?_⟩
  rw [all, all, Segment.tokens_append, hcut.join_eq, Segment.tokens, List.map_append,
    List.append_assoc]
  simp only [endToken, Position.advance_append, Position.advance_cons, Position.advance_nil,
    Position.start_advance_newline, Segment.tokens_shift, Position.advance_shift,
    Token.ofText_shift, List.map_cons, List.map_nil]

end Rulebook
