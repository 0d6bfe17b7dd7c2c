import Rulebook.Token.Scan

/-! # A text cut into segments

The scanner cuts a text into segments from its head on and gives the tokens among
them their places. How a text is cut does not depend on places, so what is known of
the segments is known of every scan.
-/

namespace Rulebook

open Text

/-- A segment of a text: a piece without what follows it. -/
structure Segment where
  kind : PieceKind
  text : List Char

namespace Segment

/-- The text of segments in a row. -/
def join (segments : List Segment) : List Char := segments.flatMap Segment.text

@[simp] theorem join_nil : join [] = [] := rfl

@[simp] theorem join_cons (s : Segment) (more : List Segment) :
    join (s :: more) = s.text ++ join more := rfl

@[simp] theorem join_append (front back : List Segment) :
    join (front ++ back) = join front ++ join back := List.flatMap_append

/-- The tokens among segments, the first of which begins at a place. -/
def tokens (place : Position) : List Segment → List (Token TokenKind)
  | [] => []
  | s :: more =>
      match s.kind with
      | .layout _ => tokens (place.advance s.text) more
      | .token kind => .ofText kind place s.text :: tokens (place.advance s.text) more

theorem tokens_append (place : Position) (front back : List Segment) :
    tokens place (front ++ back) =
      tokens place front ++ tokens (place.advance (join front)) back := by
  induction front generalizing place with
  | nil => rfl
  | cons s more ih =>
      rw [List.cons_append, tokens, tokens, join_cons, Position.advance_append]
      split
      · exact ih _
      · rw [ih, List.cons_append]

end Segment

/-- A text is cut into segments: each is the piece at the head of what is left. -/
inductive Cut : List Char → List Segment → Prop
  | nil : Cut [] []
  | cons {text rest : List Char} {s : Segment} {more : List Segment}
      (hfirst : Piece.first? text = some ⟨s.kind, s.text, rest⟩) (hmore : Cut rest more) :
      Cut text (s :: more)

namespace Cut

variable {text : List Char} {front back : List Segment}

theorem cons_iff {s : Segment} {more : List Segment} : Cut text (s :: more) ↔
    ∃ rest, Piece.first? text = some ⟨s.kind, s.text, rest⟩ ∧ Cut rest more := by
  constructor
  · rintro (_ | ⟨hfirst, hmore⟩)
    exact ⟨_, hfirst, hmore⟩
  · rintro ⟨_, hfirst, hmore⟩
    exact .cons hfirst hmore

/-- What is left of a text behind its first segments is cut into the other ones. -/
theorem exists_rest (h : Cut text (front ++ back)) :
    ∃ rest, text = Segment.join front ++ rest ∧ Cut rest back := by
  induction front generalizing text with
  | nil => exact ⟨text, rfl, h⟩
  | cons s more ih =>
      obtain ⟨_, hfirst, hmore⟩ := cons_iff.mp h
      obtain ⟨rest, hrest, hback⟩ := ih hmore
      refine ⟨rest, ?_, hback⟩
      rw [Segment.join_cons, List.append_assoc, ← hrest]
      exact (Piece.first?_append hfirst).symm

theorem join_eq {segments : List Segment} (h : Cut text segments) :
    Segment.join segments = text := by
  rw [← List.append_nil segments] at h
  obtain ⟨rest, hrest, hnil⟩ := h.exists_rest
  cases hnil
  rw [hrest, List.append_nil]

/-- A text that is cut is empty or begins with a piece. -/
theorem eq_nil_or_isSome {segments : List Segment} (h : Cut text segments) :
    text = [] ∨ (Piece.first? text).isSome := by
  cases h with
  | nil => exact .inl rfl
  | cons hfirst _ => exact .inr (hfirst ▸ rfl)

end Cut

/-- A text is cut into segments up to what is left of it. -/
inductive CutUpTo (left : List Char) : List Char → List Segment → Prop
  | done : CutUpTo left left []
  | cons {text rest : List Char} {s : Segment} {more : List Segment}
      (hfirst : Piece.first? text = some ⟨s.kind, s.text, rest⟩)
      (hmore : CutUpTo left rest more) : CutUpTo left text (s :: more)

theorem CutUpTo.append_eq {left text : List Char} {segments : List Segment}
    (h : CutUpTo left text segments) : Segment.join segments ++ left = text := by
  induction h with
  | done => rfl
  | cons hfirst _ ih => rw [Segment.join_cons, List.append_assoc, ih, Piece.first?_append hfirst]

namespace CutUpTo

variable {left text : List Char} {front : List Segment}

/-- Behind the segments that are cut off, one more is. -/
theorem concat {rest : List Char} {s : Segment} (h : CutUpTo left text front)
    (hfirst : Piece.first? left = some ⟨s.kind, s.text, rest⟩) :
    CutUpTo rest text (front ++ [s]) := by
  induction h with
  | done => exact .cons hfirst .done
  | cons hhead _ ih => exact .cons hhead ih

/-- A cut of the whole text begins with the segments that are cut off. -/
theorem exists_back {segments : List Segment} (h : CutUpTo left text front)
    (hcut : Cut text segments) : ∃ back, segments = front ++ back ∧ Cut left back := by
  induction h generalizing segments with
  | done => exact ⟨segments, rfl, hcut⟩
  | cons hfirst _ ih =>
      cases hcut with
      | nil => cases hfirst
      | @cons _ rest s more hother hmore =>
          rw [hfirst] at hother
          cases s
          cases hother
          obtain ⟨back, rfl, hback⟩ := ih hmore
          exact ⟨back, rfl, hback⟩

end CutUpTo

/-- A cut reaches what is left behind its first segments. -/
theorem Cut.exists_cutUpTo {text : List Char} {front back : List Segment}
    (h : Cut text (front ++ back)) : ∃ left, CutUpTo left text front ∧ Cut left back := by
  induction front generalizing text with
  | nil => exact ⟨text, .done, h⟩
  | cons s more ih =>
      obtain ⟨_, hfirst, hmore⟩ := cons_iff.mp h
      obtain ⟨left, hleft, hback⟩ := ih hmore
      exact ⟨left, .cons hfirst hleft, hback⟩

namespace Scan

/-- A scan is a cut of its text with places. -/
theorem ofCharsFrom_eq_ok_iff {place : Position} {text : List Char} {scan : Scan} :
    ofCharsFrom place text = .ok scan ↔ ∃ segments, Cut text segments ∧
      scan = ⟨Segment.tokens place segments, place.advance text⟩ := by
  constructor
  · intro h
    fun_induction ofCharsFrom place text generalizing scan with
    | case1 =>
        cases h
        exact ⟨[], .nil, rfl⟩
    | case2 => cases h
    | case3 => cases h
    | case4 place c more p hfirst s hrest ih =>
        cases h
        obtain ⟨segments, hcut, rfl⟩ := ih hrest
        refine ⟨⟨p.kind, p.text⟩ :: segments, .cons hfirst hcut, ?_⟩
        rw [← Piece.first?_append hfirst, Position.advance_append, Segment.tokens, prepend,
          Position.past_eq_advance]
        cases p.kind <;> rfl
  · rintro ⟨segments, hcut, rfl⟩
    induction hcut generalizing place with
    | nil => rw [ofCharsFrom, Segment.tokens, Position.advance_nil]
    | @cons text rest s more hfirst hmore ih =>
        obtain ⟨c, tail, rfl⟩ := List.exists_cons_of_ne_nil (show text ≠ [] by
          rintro rfl
          cases hfirst)
        have happend := Piece.first?_append hfirst
        rw [ofCharsFrom, hfirst]
        simp only [Position.past_eq_advance, ih]
        rw [← happend, Position.advance_append, Segment.tokens, prepend]
        cases s.kind <;> rfl

theorem ofChars_eq_ok_iff {text : List Char} {scan : Scan} :
    ofChars text = .ok scan ↔ ∃ segments, Cut text segments ∧
      scan = ⟨Segment.tokens .start segments, Position.start.advance text⟩ := by
  rw [← ofCharsFrom_eq_ok_iff, ofChars]
  cases ofCharsFrom .start text <;> simp

/-- Scanning fails as it does behind the segments that are cut off. -/
theorem ofCharsFrom_eq_error {left text : List Char} {front : List Segment} {place : Position}
    {e : Position × Char} (h : CutUpTo left text front)
    (hleft : ofCharsFrom (place.advance (Segment.join front)) left = .error e) :
    ofCharsFrom place text = .error e := by
  induction h generalizing place with
  | done => exact hleft
  | @cons text rest s more hfirst hmore ih =>
      obtain ⟨c, tail, rfl⟩ := List.exists_cons_of_ne_nil (show text ≠ [] by
        rintro rfl
        cases hfirst)
      rw [Segment.join_cons, Position.advance_append] at hleft
      rw [ofCharsFrom, hfirst]
      simp only [Position.past_eq_advance, ih hleft]

/-- Where no piece stands at the head of what is left, scanning fails there. -/
theorem ofChars_eq_error {text more : List Char} {c : Char} {front : List Segment}
    (h : CutUpTo (c :: more) text front) (hnone : Piece.first? (c :: more) = none) :
    ofChars text =
      .error (.ofPlace text (.unexpectedChar c) (Position.start.advance (Segment.join front))) := by
  have hhere : ofCharsFrom (Position.start.advance (Segment.join front)) (c :: more) =
      .error (Position.start.advance (Segment.join front), c) := by
    rw [ofCharsFrom, hnone]
  rw [ofChars, ofCharsFrom_eq_error h hhere]

end Scan

end Rulebook
