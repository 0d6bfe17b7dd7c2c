import Rulebook.Pattern.Basic

/-! # Places in a text

A match goes through a text from one place to the next. What a pattern says of a place is what
stands there, and whether a text or a line begins or ends there.
-/

namespace Rulebook.Pattern

/-- A place in a text: how many characters stand before it, the last of them,
and what is left. -/
structure Cursor where
  offset : Nat
  last? : Option Char
  rest : List Char
  deriving Repr, DecidableEq

namespace Cursor

/-- The place before a text. -/
def ofText (text : List Char) : Cursor := ⟨0, none, text⟩

/-- Whether the text begins here, or a line if lines count. -/
def isStart (flags : Flags) (c : Cursor) : Bool :=
  match c.last? with
  | none => true
  | some last => flags.multiline && last = '\n'

/-- Whether the text ends here or before its last newline, or a line ends here if
lines count. -/
def isStop (flags : Flags) (c : Cursor) : Bool :=
  match c.rest with
  | [] => true
  | next :: more => next = '\n' && (flags.multiline || more.isEmpty)

/-- Whether there is a next character, and it is accepted. -/
def accepts (isAccepted : Char → Bool) (c : Cursor) : Bool :=
  match c.rest with
  | [] => false
  | next :: _ => isAccepted next

/-- The place some characters further on, or the end of the text if there are fewer. -/
def move : Nat → Cursor → Cursor
  | 0, c => c
  | _ + 1, ⟨offset, last?, []⟩ => ⟨offset, last?, []⟩
  | n + 1, ⟨offset, _, next :: more⟩ => move n ⟨offset + 1, some next, more⟩

@[simp] theorem move_zero (c : Cursor) : c.move 0 = c := rfl

@[simp] theorem move_nil (n offset : Nat) (last? : Option Char) :
    move n ⟨offset, last?, []⟩ = ⟨offset, last?, []⟩ := by
  cases n <;> rfl

@[simp] theorem move_cons (n offset : Nat) (last? : Option Char) (next : Char) (more : List Char) :
    move (n + 1) ⟨offset, last?, next :: more⟩ = move n ⟨offset + 1, some next, more⟩ := rfl

@[simp] theorem move_rest (n : Nat) (c : Cursor) : (c.move n).rest = c.rest.drop n := by
  fun_induction move n c with
  | case1 => rfl
  | case2 => rfl
  | case3 _ _ _ _ _ ih => simpa using ih

theorem move_offset {n : Nat} {c : Cursor} (h : n ≤ c.rest.length) :
    (c.move n).offset = c.offset + n := by
  fun_induction move n c with
  | case1 => rfl
  | case2 => simp at h
  | case3 n offset last? next more ih =>
    rw [ih (Nat.le_of_succ_le_succ h)]
    exact Nat.succ_add_eq_add_succ offset n

theorem move_add (m n : Nat) (c : Cursor) : c.move (m + n) = (c.move m).move n := by
  fun_induction move m c with
  | case1 => rw [Nat.zero_add]
  | case2 => rw [move_nil, move_nil]
  | case3 m offset last? next more ih => rw [Nat.succ_add, move_cons, ih]

end Cursor

end Rulebook.Pattern
