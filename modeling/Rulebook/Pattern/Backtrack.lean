import Rulebook.Pattern.Cursor

/-! # Matching by trying

What a pattern means is the order in which its matches at a place are tried: those of the first
of two alternatives before those of the second, and of a repetition more of its body before
less, or less before more if it is lazy. The match that counts is the first one from which
what comes after the pattern can go on.
-/

namespace Rulebook.Pattern

/-- Tries to repeat a body and go on from there. An iteration that takes nothing is the last. -/
def iterate {β : Type} (body : Cursor → (Cursor → Option β) → Option β) (isLazy : Bool)
    (goOn : Cursor → Option β) (c : Cursor) : Option β :=
  let again := body c fun d =>
    if d.rest.length < c.rest.length then iterate body isLazy goOn d else goOn d
  if isLazy then (goOn c).or again else again.or (goOn c)
termination_by c.rest.length

/-- Tries the matches of a pattern at a place until it is possible to go on from one. -/
def backtrack (flags : Flags) : Pattern → {β : Type} → Cursor → (Cursor → Option β) → Option β
  | empty, _, c, goOn => goOn c
  | one set, _, c, goOn => if c.accepts (set.has flags) then goOn (c.move 1) else none
  | dot, _, c, goOn =>
      if c.accepts fun next => flags.dotAll || next ≠ '\n' then goOn (c.move 1) else none
  | start, _, c, goOn => if c.isStart flags then goOn c else none
  | stop, _, c, goOn => if c.isStop flags then goOn c else none
  | andThen first second, _, c, goOn =>
      backtrack flags first c fun d => backtrack flags second d goOn
  | either first second, _, c, goOn =>
      (backtrack flags first c goOn).or (backtrack flags second c goOn)
  | many body isLazy, _, c, goOn => iterate (fun d => backtrack flags body d) isLazy goOn c
  | atomic body, _, c, goOn => (backtrack flags body c some).bind goOn

/-- Where the preferred match of a pattern at a place ends. -/
def preferredEnd? (flags : Flags) (p : Pattern) (c : Cursor) : Option Cursor :=
  p.backtrack flags c some

end Rulebook.Pattern
