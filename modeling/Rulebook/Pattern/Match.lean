import Rulebook.Pattern.Thread

/-! # Matching

A pattern is matched by following all of its threads through the text at once.
The threads stand in order of preference: once one of them completes, those after
it no longer count, but those before it may still complete further on. Among the
matches that begin at different places the one that begins first is preferred.
-/

namespace Rulebook.Pattern

/-- A thread with the offset at which its match begins. -/
structure Started where
  offset : Nat
  thread : Thread

/-- The ways of started threads in order of preference; of equal ways the one
that was started first is kept. -/
def startedWays (waysOf : Thread → Ways) (threads : List Started) : List (Nat × Option Thread) :=
  threads.foldl (fun found s =>
    found ++ ((waysOf s.thread).filter fun way => !found.any fun other => other.2 == way).map
      (s.offset, ·)) []

/-- The threads among some ways. -/
def goingOn (found : List (Nat × Option Thread)) : List Started :=
  found.filterMap fun (offset, way) => way.map (⟨offset, ·⟩)

/-- How far the search for a match has come: the threads that go on, and where
the match that is preferred to all that comes after them begins and ends. -/
structure Progress where
  threads : List Started
  found? : Option (Nat × Nat)

/-- The progress over the next character. If matches may begin `anywhere`, a
thread for the whole pattern is started here, unless a match has been found. -/
def Progress.advance (waysAt : Cursor → Thread → Ways) (p : Pattern) (anywhere : Bool) (c : Cursor)
    (s : Progress) : Progress :=
  let isStarting := anywhere && s.found?.isNone
  let threads := if isStarting then s.threads ++ [⟨c.offset, ⟨0, [p]⟩⟩] else s.threads
  let found := startedWays (waysAt c) threads
  { threads := goingOn (found.takeWhile (·.2.isSome))
    found? := match found.find? (·.2.isNone) with
      | some (first, _) => some (first, c.offset)
      | none => s.found? }

/-- The offsets at which the preferred match begins and ends, from some progress
on through the rest of a text. -/
def follow (waysAt : Cursor → Thread → Ways) (p : Pattern) (anywhere : Bool) (offset : Nat)
    (last? : Option Char) (s : Progress) (text : List Char) : Option (Nat × Nat) :=
  let after := s.advance waysAt p anywhere ⟨offset, last?, text⟩
  match text with
  | [] => after.found?
  | next :: more =>
      if after.threads.isEmpty && (!anywhere || after.found?.isSome) then after.found?
      else follow waysAt p anywhere (offset + 1) (some next) after more

/-- Whether some thread completes at the end of a text. -/
def reachesEnd (waysAt : Cursor → Thread → Ways) (offset : Nat) (last? : Option Char)
    (threads : List Started) (text : List Char) : Bool :=
  let found := startedWays (waysAt ⟨offset, last?, text⟩) threads
  match text with
  | [] => found.any (·.2.isNone)
  | next :: more =>
      !(goingOn found).isEmpty && reachesEnd waysAt (offset + 1) (some next) (goingOn found) more

/-- How many characters the preferred match of a pattern at a place takes, for a
pattern in which atomic patterns stand within each other no deeper than `depth`. -/
def preferredLength? (flags : Flags) (depth : Nat) (p : Pattern) (c : Cursor) : Option Nat :=
  let atomicLength? : Pattern → Cursor → Option Nat :=
    match depth with
    | 0 => fun _ _ => none
    | depth + 1 => preferredLength? flags depth
  let whole : Progress := ⟨[⟨c.offset, ⟨0, [p]⟩⟩], none⟩
  (follow (fun c t => t.ways flags atomicLength? c) p false c.offset c.last? whole c.rest).map
    fun (first, last) => last - first

/-- The ways of a thread of a pattern at a place. -/
def waysAt (flags : Flags) (p : Pattern) (c : Cursor) (t : Thread) : Ways :=
  t.ways flags (preferredLength? flags p.atomicDepth) c

/-- Whether a whole text matches. -/
def matchesAll (flags : Flags) (p : Pattern) (text : List Char) : Bool :=
  reachesEnd (waysAt flags p) 0 none [⟨0, ⟨0, [p]⟩⟩] text

/-- The offsets at which the first match in a text begins and ends. -/
def search (flags : Flags) (p : Pattern) (text : List Char) : Option (Nat × Nat) :=
  follow (waysAt flags p) p true 0 none ⟨[], none⟩ text

end Rulebook.Pattern
