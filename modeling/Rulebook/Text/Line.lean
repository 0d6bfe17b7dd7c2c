/-! # Positions and lines of a text

A position counts characters from the start of a text, together with the line
and the column that a reader would name. Lines are separated by newlines, so a
text with `n` newlines has `n + 1` lines.
-/

namespace Rulebook.Text

/-- A place in a text: characters before it, its line, its column. Lines and
columns count from one. -/
structure Position where
  offset : Nat
  line : Nat
  column : Nat
  deriving Repr, DecidableEq, Inhabited

/-- The place before the first character. -/
def Position.start : Position := ⟨0, 1, 1⟩

/-- The place after one more character. -/
def Position.step (p : Position) (c : Char) : Position :=
  if c = '\n' then ⟨p.offset + 1, p.line + 1, 1⟩
  else ⟨p.offset + 1, p.line, p.column + 1⟩

/-- The place after a piece of text. -/
def Position.advance (p : Position) (piece : List Char) : Position :=
  piece.foldl Position.step p

@[simp] theorem Position.advance_nil (p : Position) : p.advance [] = p := rfl

@[simp] theorem Position.advance_cons (p : Position) (c : Char) (piece : List Char) :
    p.advance (c :: piece) = (p.step c).advance piece := rfl

@[simp] theorem Position.advance_append (p : Position) (first second : List Char) :
    p.advance (first ++ second) = (p.advance first).advance second := by
  simp [Position.advance]

@[simp] theorem Position.step_offset (p : Position) (c : Char) :
    (p.step c).offset = p.offset + 1 := by
  unfold Position.step
  split <;> rfl

@[simp] theorem Position.advance_offset (p : Position) (piece : List Char) :
    (p.advance piece).offset = p.offset + piece.length := by
  induction piece generalizing p with
  | nil => rfl
  | cons c rest ih =>
      rw [Position.advance_cons, ih, Position.step_offset, List.length_cons]
      omega

/-- The index of the last newline of a text, if there is one. -/
def lastNewline? : List Char → Option Nat
  | [] => none
  | c :: rest =>
      match lastNewline? rest with
      | some index => some (index + 1)
      | none => if c = '\n' then some 0 else none

/-- A text with newlines has a last one. -/
theorem count_newline_of_lastNewline?_eq_none {text : List Char} (h : lastNewline? text = none) :
    text.count '\n' = 0 := by
  induction text with
  | nil => rfl
  | cons c rest ih =>
      unfold lastNewline? at h
      split at h
      · cases h
      · next hrest =>
          split at h
          · cases h
          · next hc => rw [List.count_cons, ih hrest, if_neg (by simpa using hc)]

/-- The place after a piece of text, whose newlines are counted at once: the last of them
gives the column. -/
def Position.past (p : Position) (piece : List Char) : Position :=
  match lastNewline? piece with
  | none => ⟨p.offset + piece.length, p.line, p.column + piece.length⟩
  | some index => ⟨p.offset + piece.length, p.line + piece.count '\n', piece.length - index⟩

/-- Counted at once or one by one, characters lead to the same place. -/
theorem Position.past_eq_advance (p : Position) (piece : List Char) :
    p.past piece = p.advance piece := by
  induction piece generalizing p with
  | nil => rfl
  | cons c rest ih =>
      rw [Position.advance_cons, ← ih]
      unfold Position.past Position.step
      rw [lastNewline?, List.count_cons, List.length_cons]
      by_cases hc : c = '\n'
      · cases hlast : lastNewline? rest with
        | none => simp [hc, count_newline_of_lastNewline?_eq_none hlast]; omega
        | some index => simp [hc]; omega
      · cases hlast : lastNewline? rest with
        | none => simp [hc]; omega
        | some index => simp [hc]; omega

/-- Where the line starts in which an offset stands: behind the last newline in front. -/
def lineStart (text : List Char) (offset : Nat) : Nat :=
  match lastNewline? (text.take offset) with
  | none => 0
  | some index => index + 1

/-- The lines of a text, without their newlines. -/
def lines : List Char → List (List Char)
  | [] => [[]]
  | c :: rest =>
      if c = '\n' then [] :: lines rest
      else match lines rest with
        | [] => [[c]]
        | line :: more => (c :: line) :: more

/-- The line in which an offset stands. A newline belongs to the line it ends. -/
def lineAt (text : List Char) (offset : Nat) : List Char :=
  let before := (text.take offset).reverse.takeWhile (· ≠ '\n')
  before.reverse ++ (text.drop offset).takeWhile (· ≠ '\n')

/-- One newline for each line break: a carriage return followed by a newline, a
carriage return alone, or a newline. -/
def unifyBreaks : List Char → List Char
  | '\r' :: '\n' :: rest => '\n' :: unifyBreaks rest
  | '\r' :: rest => '\n' :: unifyBreaks rest
  | c :: rest => c :: unifyBreaks rest
  | [] => []

end Rulebook.Text
