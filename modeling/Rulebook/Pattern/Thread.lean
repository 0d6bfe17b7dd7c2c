import Rulebook.Pattern.Cursor

/-! # Threads of a match

At a place in a text a pattern can go on in several ways, of which the preferred
ones come first: it completes without taking anything, or it takes the next
character and leaves a thread, which says what has to come after. Two equal
threads at one place have the same future, so of equal ways only the first is
kept, and there are never more of them than the pattern has parts.
-/

namespace Rulebook.Pattern

/-- What has to come after a character: any characters, of which there are
`wait`, and then the patterns of `rest`, one after another. -/
structure Thread where
  wait : Nat
  rest : List Pattern
  deriving Repr, DecidableEq

/-- A thread with patterns after its own. -/
def Thread.followedBy (more : List Pattern) (t : Thread) : Thread := { t with rest := t.rest ++ more }

/-- Ways to go on: to complete, or to take the next character and leave a thread.
The preferred ones come first. -/
abbrev Ways := List (Option Thread)

namespace Ways

/-- The ways to take the next character, if it is accepted, and complete. -/
def taking (isAccepted : Char → Bool) (c : Cursor) : Ways :=
  if c.accepts isAccepted then [some ⟨0, []⟩] else []

/-- The ways to complete at once, if that is possible here. -/
def completing (isPossible : Bool) : Ways := if isPossible then [none] else []

/-- The ways of one pattern after another: where the first completes, those of
the second; else the second is left for later. -/
def andThen (first : Ways) (second : List Pattern) (waysOfSecond : Ways) : Ways :=
  (first.flatMap fun way =>
    match way with
    | none => waysOfSecond
    | some t => [some (t.followedBy second)]).eraseDups

/-- The ways to match as many characters as are given, and complete. -/
def skipping : Option Nat → Ways
  | none => []
  | some 0 => [none]
  | some (n + 1) => [some ⟨n, []⟩]

end Ways

/-- The ways of a pattern. An iteration of a repetition that takes nothing is the
last one. For an atomic pattern it is known how many characters it takes. -/
def ways (flags : Flags) (atomicLength? : Pattern → Cursor → Option Nat) (c : Cursor) : Pattern → Ways
  | empty => [none]
  | one set => .taking (set.has flags) c
  | dot => .taking (fun next => flags.dotAll || next ≠ '\n') c
  | start => .completing (c.isStart flags)
  | stop => .completing (c.isStop flags)
  | andThen first second =>
      .andThen (ways flags atomicLength? c first) [second] (ways flags atomicLength? c second)
  | either first second =>
      (ways flags atomicLength? c first ++ ways flags atomicLength? c second).eraseDups
  | many body isLazy =>
      let again := Ways.andThen (ways flags atomicLength? c body) [many body isLazy] [none]
      (if isLazy then none :: again else again ++ [none]).eraseDups
  | atomic body => .skipping (atomicLength? body c)

/-- The ways of patterns, one after another. -/
def waysOfAll (flags : Flags) (atomicLength? : Pattern → Cursor → Option Nat) (c : Cursor) :
    List Pattern → Ways
  | [] => [none]
  | p :: rest => .andThen (ways flags atomicLength? c p) rest (waysOfAll flags atomicLength? c rest)

/-- The ways of a thread. -/
def Thread.ways (flags : Flags) (atomicLength? : Pattern → Cursor → Option Nat) (c : Cursor)
    (t : Thread) : Ways :=
  match t.wait with
  | 0 => waysOfAll flags atomicLength? c t.rest
  | n + 1 => if c.accepts fun _ => true then [some { t with wait := n }] else []

/-- How deep atomic patterns stand within each other. -/
def atomicDepth : Pattern → Nat
  | andThen first second | either first second => max first.atomicDepth second.atomicDepth
  | many body _ => body.atomicDepth
  | atomic body => body.atomicDepth + 1
  | _ => 0

end Rulebook.Pattern
