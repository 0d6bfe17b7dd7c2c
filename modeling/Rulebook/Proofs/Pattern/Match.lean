import Rulebook.Proofs.Pattern.Threads

/-! # What following threads finds

To follow all threads of a pattern through a text finds what trying its matches finds: where the
preferred match ends, the first place at which one begins, and whether one takes the whole text.
-/

namespace Rulebook.Pattern

variable {β : Type} {flags : Flags} {depth : Nat} {c : Cursor}

/-! ## Started threads -/

/-- Adds the ways of a started thread to those that have been found, but for equal ones. -/
def addWays (waysOf : Thread → Ways) (found : List (Nat × Option Thread)) (s : Started) :
    List (Nat × Option Thread) :=
  let more := (waysOf s.thread).filter fun way => !found.any fun other => other.2 == way
  found ++ more.map (s.offset, ·)

theorem startedWays_eq (waysOf : Thread → Ways) (threads : List Started) :
    startedWays waysOf threads = threads.foldl (addWays waysOf) [] := rfl

/-- The result of a way with the offset at which its match begins. -/
def withOffset (f : Option Thread → Option β) (x : Nat × Option Thread) : Option (Nat × β) :=
  (f x.2).map (x.1, ·)

theorem findSome?_map_offset (f : Option Thread → Option β) (offset : Nat) (ways : Ways) :
    (ways.map (offset, ·)).findSome? (withOffset f) = (ways.findSome? f).map (offset, ·) := by
  induction ways with
  | nil => rfl
  | cons way rest ih =>
    rw [List.map_cons, List.findSome?_cons, List.findSome?_cons, ih, withOffset]
    cases f way <;> rfl

/-- An equal way that has been found before has not succeeded if another is looked for. -/
theorem findSome?_addWays (waysOf : Thread → Ways) (f : Option Thread → Option β)
    (found : List (Nat × Option Thread)) (s : Started) :
    (addWays waysOf found s).findSome? (withOffset f) =
      (found.findSome? (withOffset f)).or (((waysOf s.thread).findSome? f).map (s.offset, ·)) := by
  rw [addWays, List.findSome?_append, findSome?_map_offset]
  cases hfound : found.findSome? (withOffset f) with
  | some r => rfl
  | none =>
    rw [findSome?_filter]
    intro way _ hway
    rw [Bool.not_eq_false'] at hway
    obtain ⟨other, hother, hsame⟩ := List.any_eq_true.mp hway
    have hnone := List.findSome?_eq_none_iff.mp hfound other hother
    rw [withOffset, eq_of_beq hsame] at hnone
    exact Option.map_eq_none_iff.mp hnone

/-- The first way to succeed among those of started threads is the first of their first ways. -/
theorem findSome?_startedWays (waysOf : Thread → Ways) (f : Option Thread → Option β)
    (threads : List Started) :
    (startedWays waysOf threads).findSome? (withOffset f) =
      threads.findSome? fun s => ((waysOf s.thread).findSome? f).map (s.offset, ·) := by
  have hfold : ∀ found : List (Nat × Option Thread),
      (threads.foldl (addWays waysOf) found).findSome? (withOffset f) =
        (found.findSome? (withOffset f)).or
          (threads.findSome? fun s => ((waysOf s.thread).findSome? f).map (s.offset, ·)) := by
    induction threads with
    | nil => exact fun found => Option.or_none.symm
    | cons s rest ih =>
      intro found
      rw [List.foldl_cons, ih, findSome?_addWays, List.findSome?_cons, Option.or_assoc]
      cases ((waysOf s.thread).findSome? f).map (s.offset, ·) <;> rfl
  rw [startedWays_eq, hfold]
  rfl

/-- The ways of started threads are ways of one of them. -/
theorem exists_of_mem_startedWays {waysOf : Thread → Ways} {threads : List Started}
    {x : Nat × Option Thread} (h : x ∈ startedWays waysOf threads) :
    ∃ s ∈ threads, x.2 ∈ waysOf s.thread := by
  have hfold : ∀ (threads : List Started) (found : List (Nat × Option Thread)),
      x ∈ threads.foldl (addWays waysOf) found →
        x ∈ found ∨ ∃ s ∈ threads, x.2 ∈ waysOf s.thread := by
    intro threads
    induction threads with
    | nil => exact fun found hx => .inl hx
    | cons s rest ih =>
      intro found hx
      obtain hx | ⟨s', hs', hmem⟩ := ih _ hx
      · obtain hx | hx := List.mem_append.mp hx
        · exact .inl hx
        · obtain ⟨way, hway, rfl⟩ := List.mem_map.mp hx
          exact .inr ⟨s, List.mem_cons_self, (List.mem_filter.mp hway).1⟩
      · exact .inr ⟨s', List.mem_cons_of_mem _ hs', hmem⟩
  obtain hnil | hstarted := hfold threads [] h
  · cases hnil
  · exact hstarted

/-! ## One step -/

/-- Ways at places that come to going on from any thread within a bound, by threads within it. -/
structure Faithful (flags : Flags) (depth : Nat) (waysFrom : Cursor → Thread → Ways) : Prop where
  backtrack : ∀ {β : Type} (c : Cursor) {t : Thread} (goOn : Cursor → Option β), t.IsWithin depth →
    (waysFrom c t).backtrack flags c goOn = t.backtrack flags c goOn
  areWithin : ∀ (c : Cursor) {t : Thread}, t.IsWithin depth → (waysFrom c t).AreWithin depth

theorem faithful_ways {atomicLength? : Pattern → Cursor → Option Nat}
    (exact : ExactTo flags depth atomicLength?) :
    Faithful flags depth fun c t => t.ways flags atomicLength? c where
  backtrack _ _ _ ht := Thread.backtrack_ways exact ht
  areWithin _ _ ht := Thread.areWithin_ways ht

/-- Tries to go on from started threads in order. The result comes with the offset at which the
match begins. -/
def tryStarted (flags : Flags) (c : Cursor) (goOn : Cursor → Option β) (threads : List Started) :
    Option (Nat × β) :=
  threads.findSome? fun s => (s.thread.backtrack flags c goOn).map (s.offset, ·)

/-- Started threads within a bound. -/
def AreStartedWithin (depth : Nat) (threads : List Started) : Prop :=
  ∀ s ∈ threads, s.thread.IsWithin depth

variable {waysFrom : Cursor → Thread → Ways} {threads : List Started}

theorem findSome?_ways (faithful : Faithful flags depth waysFrom)
    (within : AreStartedWithin depth threads) (goOn : Cursor → Option β) :
    (startedWays (waysFrom c) threads).findSome? (withOffset (Ways.goBy flags c goOn)) =
      tryStarted flags c goOn threads := by
  rw [findSome?_startedWays]
  unfold tryStarted
  induction threads with
  | nil => rfl
  | cons s rest ih =>
    obtain ⟨hs, hrest⟩ := List.forall_mem_cons.mp within
    have hways : (waysFrom c s.thread).findSome? (Ways.goBy flags c goOn) =
        s.thread.backtrack flags c goOn := faithful.backtrack c goOn hs
    rw [List.findSome?_cons, List.findSome?_cons, ih hrest, hways]

/-- Threads that go on are within the bound, too. -/
theorem areStartedWithin_goingOn (faithful : Faithful flags depth waysFrom)
    (within : AreStartedWithin depth threads) {found : List (Nat × Option Thread)}
    (hfound : ∀ x ∈ found, x ∈ startedWays (waysFrom c) threads) :
    AreStartedWithin depth (goingOn found) := by
  intro s hs
  obtain ⟨⟨offset, way⟩, hx, hway⟩ := List.mem_filterMap.mp hs
  obtain ⟨t, rfl, rfl⟩ := Option.map_eq_some_iff.mp hway
  obtain ⟨s, hs, hmem⟩ := exists_of_mem_startedWays (hfound _ hx)
  exact faithful.areWithin c (within s hs) t hmem

/-- What comes of the threads that go on behind the next character. -/
theorem findSome?_goingOn {c : Cursor} (hnext : c.rest.isEmpty = false) (goOn : Cursor → Option β)
    (found : List (Nat × Option Thread)) :
    tryStarted flags (c.move 1) goOn (goingOn found) =
      (found.filter (·.2.isSome)).findSome? (withOffset (Ways.goBy flags c goOn)) := by
  induction found with
  | nil => rfl
  | cons x rest ih =>
    obtain ⟨offset, way⟩ := x
    cases way with
    | none => exact ih
    | some t =>
      have hthreads : goingOn ((offset, some t) :: rest) = ⟨offset, t⟩ :: goingOn rest := rfl
      have hways : ((offset, some t) :: rest).filter (·.2.isSome) =
          (offset, some t) :: rest.filter (·.2.isSome) := rfl
      have hby : withOffset (Ways.goBy flags c goOn) (offset, some t) =
          (t.backtrack flags (c.move 1) goOn).map (offset, ·) := by
        rw [withOffset, Ways.goBy, hnext]
        rfl
      rw [hthreads, hways, List.findSome?_cons, hby, ← ih, tryStarted, List.findSome?_cons]
      rfl

/-- Nothing goes on at the end of a text. -/
theorem findSome?_goingOn_end {c : Cursor} (hend : c.rest.isEmpty = true) (goOn : Cursor → Option β)
    (found : List (Nat × Option Thread)) :
    (found.filter (·.2.isSome)).findSome? (withOffset (Ways.goBy flags c goOn)) = none := by
  refine List.findSome?_eq_none_iff.mpr fun x hx => ?_
  obtain ⟨offset, way⟩ := x
  cases way with
  | none => cases (List.mem_filter.mp hx).2
  | some t =>
    rw [withOffset, Ways.goBy, hend]
    rfl

/-- Ways behind the first to complete do not count. -/
theorem findSome?_takeWhile {f : Option Thread → Option β} {r : β} (hnone : f none = some r)
    (found : List (Nat × Option Thread)) :
    found.findSome? (withOffset f) =
      (((found.takeWhile (·.2.isSome)).filter (·.2.isSome)).findSome? (withOffset f)).or
        ((found.find? (·.2.isNone)).map fun x => (x.1, r)) := by
  induction found with
  | nil => rfl
  | cons x rest ih =>
    obtain ⟨offset, way⟩ := x
    cases way with
    | none =>
      rw [List.findSome?_cons, withOffset, hnone]
      rfl
    | some t =>
      have hways : (((offset, some t) :: rest).takeWhile (·.2.isSome)).filter (·.2.isSome) =
          (offset, some t) :: (rest.takeWhile (·.2.isSome)).filter (·.2.isSome) := rfl
      have hfind : ((offset, some t) :: rest).find? (·.2.isNone) = rest.find? (·.2.isNone) := rfl
      rw [hways, hfind, List.findSome?_cons, List.findSome?_cons, ih]
      cases withOffset f (offset, some t) <;> rfl

/-! ## Following threads -/

/-- Where the first match begins from a place on, and where the preferred one that begins there
ends. -/
def firstMatch? (flags : Flags) (p : Pattern) (c : Cursor) : Option (Nat × Nat) :=
  (List.range (c.rest.length + 1)).findSome? fun n =>
    (p.preferredEnd? flags (c.move n)).map fun d => ((c.move n).offset, d.offset)

theorem firstMatch?_eq (p : Pattern) (c : Cursor) :
    firstMatch? flags p c =
      ((p.preferredEnd? flags c).map fun d => (c.offset, d.offset)).or
        (if c.rest.isEmpty then none else firstMatch? flags p (c.move 1)) := by
  obtain ⟨offset, last?, text⟩ := c
  cases text with
  | nil =>
    rw [firstMatch?, List.length_nil, List.range_one, List.findSome?_singleton]
    exact Option.or_none.symm
  | cons next more =>
    rw [firstMatch?, List.length_cons, List.range_succ_eq_map, List.findSome?_cons,
    List.findSome?_map,
      Cursor.move_zero]
    cases p.preferredEnd? flags ⟨offset, last?, next :: more⟩ <;> rfl

/-- A thread for a whole pattern comes to trying it. -/
theorem backtrack_whole (p : Pattern) (goOn : Cursor → Option β) :
    Thread.backtrack flags ⟨0, [p]⟩ c goOn = p.backtrack flags c goOn :=
  if_pos (Nat.zero_le _)

namespace Progress

variable {p : Pattern} {anywhere : Bool} {s : Progress}

/-- Progress whose threads are within a bound. -/
def IsWithin (depth : Nat) (s : Progress) : Prop := AreStartedWithin depth s.threads

/-- What progress comes to at a place: its threads are preferred to the match that it has found, and
this to one that begins here or further on. -/
def result? (flags : Flags) (p : Pattern) (anywhere : Bool) (c : Cursor) (s : Progress) :
    Option (Nat × Nat) :=
  ((tryStarted flags c some s.threads).map fun x => (x.1, x.2.offset)).or
    (s.found?.or (if anywhere then firstMatch? flags p c else none))

/-- The threads that are followed from a place on, with one that begins here if a match may. -/
def startedAt (p : Pattern) (anywhere : Bool) (c : Cursor) (s : Progress) : List Started :=
  if anywhere && s.found?.isNone then s.threads ++ [⟨c.offset, ⟨0, [p]⟩⟩] else s.threads

/-- A match that begins here is preferred to one that begins further on. -/
theorem result?_eq (p : Pattern) (anywhere : Bool) (c : Cursor) (s : Progress) :
    s.result? flags p anywhere c =
      ((tryStarted flags c some (s.startedAt p anywhere c)).map fun x => (x.1, x.2.offset)).or
        (s.found?.or
          (if anywhere && !c.rest.isEmpty then firstMatch? flags p (c.move 1) else none)) := by
  unfold result? startedAt
  cases anywhere with
  | false => rfl
  | true =>
    cases hfound : s.found? with
    | some found => rfl
    | none =>
      have hstart : (Thread.backtrack flags ⟨0, [p]⟩ c some).map (fun d => (c.offset, d)) =
          (p.preferredEnd? flags c).map fun d => (c.offset, d) :=
        congrArg _ (backtrack_whole p some)
      simp only [tryStarted, Bool.true_and, Option.isNone_none, if_true, List.findSome?_append,
        List.findSome?_singleton, Option.none_or, hstart, firstMatch?_eq p c, Option.map_or,
        Option.map_map, Option.or_assoc]
      cases c.rest.isEmpty <;> rfl

theorem threads_advance (waysFrom : Cursor → Thread → Ways) :
    (s.advance waysFrom p anywhere c).threads =
      goingOn ((startedWays (waysFrom c) (s.startedAt p anywhere c)).takeWhile (·.2.isSome)) := rfl

theorem found?_advance (waysFrom : Cursor → Thread → Ways) :
    (s.advance waysFrom p anywhere c).found? =
      (((startedWays (waysFrom c) (s.startedAt p anywhere c)).find? (·.2.isNone)).map
        fun x => (x.1, c.offset)).or s.found? := by
  simp only [advance, startedAt]
  cases (startedWays (waysFrom c) _).find? (·.2.isNone) <;> rfl

theorem areStartedWithin_startedAt (within : s.IsWithin depth) (hp : p.atomicDepth ≤ depth) :
    AreStartedWithin depth (s.startedAt p anywhere c) := by
  unfold startedAt
  split
  · intro t ht
    obtain ht | ht := List.mem_append.mp ht
    · exact within t ht
    · obtain rfl := List.mem_singleton.mp ht
      exact List.forall_mem_singleton.mpr hp
  · exact within

/-- A step keeps threads within their bound. -/
theorem isWithin_advance (faithful : Faithful flags depth waysFrom) (within : s.IsWithin depth)
    (hp : p.atomicDepth ≤ depth) : (s.advance waysFrom p anywhere c).IsWithin depth :=
  areStartedWithin_goingOn faithful (areStartedWithin_startedAt within hp)
    fun _ hx => (List.takeWhile_sublist _).subset hx

/-- What comes of the threads that are followed from a place: what comes of those that go on before
the first one to complete, or the match that this completes. -/
theorem tryStarted_startedAt (faithful : Faithful flags depth waysFrom) (within : s.IsWithin depth)
    (hp : p.atomicDepth ≤ depth) :
    let found := startedWays (waysFrom c) (s.startedAt p anywhere c)
    tryStarted flags c some (s.startedAt p anywhere c) =
      (((found.takeWhile (·.2.isSome)).filter (·.2.isSome)).findSome?
        (withOffset (Ways.goBy flags c some))).or
          ((found.find? (·.2.isNone)).map fun x => (x.1, c)) := by
  intro found
  rw [← findSome?_ways faithful (areStartedWithin_startedAt within hp)]
  exact findSome?_takeWhile (show Ways.goBy flags c some none = some c from rfl) found

/-- A step over a character keeps what progress comes to. -/
theorem result?_advance (faithful : Faithful flags depth waysFrom) (within : s.IsWithin depth)
    (hp : p.atomicDepth ≤ depth) (hnext : c.rest.isEmpty = false) :
    (s.advance waysFrom p anywhere c).result? flags p anywhere (c.move 1) =
      s.result? flags p anywhere c := by
  rw [result?_eq p anywhere c s, tryStarted_startedAt faithful within hp, ← findSome?_goingOn hnext,
    ← threads_advance, result?, found?_advance, hnext]
  simp only [Option.map_or, Option.map_map, Option.or_assoc, Bool.not_false, Bool.and_true]
  rfl

/-- At the end of a text a step tells what progress comes to. -/
theorem found?_advance_end (faithful : Faithful flags depth waysFrom) (within : s.IsWithin depth)
    (hp : p.atomicDepth ≤ depth) (hend : c.rest.isEmpty = true) :
    (s.advance waysFrom p anywhere c).found? = s.result? flags p anywhere c := by
  rw [result?_eq, tryStarted_startedAt faithful within hp, findSome?_goingOn_end hend,
    found?_advance, hend]
  simp only [Option.none_or, Option.map_map, Bool.not_true, Bool.and_false, Bool.false_eq_true,
    if_false, Option.or_none]
  rfl

/-- Where no threads are left and none is started, the match that has been found counts. -/
theorem result?_of_done (hdone : (s.threads.isEmpty && (!anywhere || s.found?.isSome)) = true) :
    s.result? flags p anywhere c = s.found? := by
  obtain ⟨threads, found?⟩ := s
  obtain ⟨hthreads, hfound⟩ := Bool.and_eq_true_iff.mp hdone
  obtain rfl : threads = [] := List.isEmpty_iff.mp hthreads
  cases found? with
  | some found => rfl
  | none =>
    cases anywhere with
    | false => rfl
    | true => cases hfound

end Progress

/-! ## Runs -/

variable {p : Pattern} {anywhere : Bool}

/-- Following threads through the rest of a text finds what they come to. -/
theorem follow_eq (faithful : Faithful flags depth waysFrom) (hp : p.atomicDepth ≤ depth)
    {s : Progress} (within : s.IsWithin depth) (offset : Nat) (last? : Option Char) (text : List Char) :
    follow waysFrom p anywhere offset last? s text =
      s.result? flags p anywhere ⟨offset, last?, text⟩ := by
  induction text generalizing s offset last? with
  | nil => exact Progress.found?_advance_end faithful within hp rfl
  | cons next more ih =>
    rw [← Progress.result?_advance faithful within hp rfl, follow]
    split
    · next hdone => exact (Progress.result?_of_done hdone).symm
    · exact ih (Progress.isWithin_advance faithful within hp) _ _

/-- A single thread for a whole pattern is tried by trying the pattern. -/
theorem tryStarted_whole (p : Pattern) (offset : Nat) (goOn : Cursor → Option β) :
    tryStarted flags c goOn [⟨offset, ⟨0, [p]⟩⟩] = (p.backtrack flags c goOn).map (offset, ·) := by
  rw [tryStarted, List.findSome?_singleton, backtrack_whole]

theorem areStartedWithin_whole {offset : Nat} (hp : p.atomicDepth ≤ depth) :
    AreStartedWithin depth [⟨offset, ⟨0, [p]⟩⟩] :=
  List.forall_mem_singleton.mpr (List.forall_mem_singleton.mpr hp)

/-- Where atomic patterns are known, so is the length of a preferred match. -/
theorem map_follow_whole {atomicLength? : Pattern → Cursor → Option Nat}
    (exact : ExactTo flags depth atomicLength?) (hp : p.atomicDepth ≤ depth) (c : Cursor) :
    (follow (fun c t => t.ways flags atomicLength? c) p false c.offset c.last?
      ⟨[⟨c.offset, ⟨0, [p]⟩⟩], none⟩ c.rest).map (fun (first, last) => last - first) =
        (p.preferredEnd? flags c).map fun d => d.offset - c.offset := by
  have within : Progress.IsWithin depth ⟨[⟨c.offset, ⟨0, [p]⟩⟩], none⟩ := areStartedWithin_whole hp
  rw [follow_eq (faithful_ways exact) hp within, Progress.result?, tryStarted_whole]
  change Option.map _ ((Option.map _ (Option.map _ (p.preferredEnd? flags c))).or none) = _
  rw [Option.or_none, Option.map_map, Option.map_map]
  rfl

/-- How many characters the preferred match of a pattern takes is known of every pattern, whatever
atomic patterns stand in it. -/
theorem exactTo_preferredLength? (flags : Flags) (depth : Nat) :
    ExactTo flags (depth + 1) (preferredLength? flags depth) := by
  induction depth with
  | zero =>
    have exact : ExactTo flags 0 fun _ _ => none :=
      fun body hbody => absurd hbody (Nat.not_lt_zero _)
    exact fun body hbody c => map_follow_whole exact (Nat.le_of_lt_succ hbody) c
  | succ depth ih => exact fun body hbody c => map_follow_whole ih (Nat.le_of_lt_succ hbody) c

theorem faithful_waysAt (flags : Flags) (p : Pattern) :
    Faithful flags (p.atomicDepth + 1) (waysAt flags p) :=
  faithful_ways (exactTo_preferredLength? flags p.atomicDepth)

/-- The engine finds the first place at which a match begins, and where the preferred match that
begins there ends. -/
theorem search_eq (flags : Flags) (p : Pattern) (text : List Char) :
    p.search flags text = firstMatch? flags p (.ofText text) := by
  have within : Progress.IsWithin (p.atomicDepth + 1) ⟨[], none⟩ :=
    fun _ ht => absurd ht List.not_mem_nil
  exact follow_eq (faithful_waysAt flags p) (Nat.le_succ _) within 0 none text

/-- The place at which a text ends. -/
def atEnd? (c : Cursor) : Option Cursor := if c.rest.isEmpty then some c else none

/-- Following threads to the end of a text tells whether going on from one of them leads there. -/
theorem reachesEnd_eq (faithful : Faithful flags depth waysFrom)
    (within : AreStartedWithin depth threads) (offset : Nat) (last? : Option Char)
    (text : List Char) :
    reachesEnd waysFrom offset last? threads text =
      (tryStarted flags ⟨offset, last?, text⟩ atEnd? threads).isSome := by
  induction text generalizing threads offset last? with
  | nil =>
    rw [reachesEnd, ← findSome?_ways faithful within]
    simp only [List.isSome_findSome?]
    congr 1
    funext x
    obtain ⟨start, way⟩ := x
    cases way <;> rfl
  | cons next more ih =>
    have hnext : (Cursor.mk offset last? (next :: more)).rest.isEmpty = false := rfl
    rw [reachesEnd, ← findSome?_ways faithful within]
    generalize hfound : startedWays (waysFrom ⟨offset, last?, next :: more⟩) threads = found
    have hmore : AreStartedWithin depth (goingOn found) :=
      areStartedWithin_goingOn faithful within fun _ hx => hfound ▸ hx
    have hgoingOn : tryStarted flags ⟨offset + 1, some next, more⟩ atEnd? (goingOn found) =
        (found.filter (·.2.isSome)).findSome?
          (withOffset (Ways.goBy flags ⟨offset, last?, next :: more⟩ atEnd?)) :=
      findSome?_goingOn hnext atEnd? found
    -- No way completes here, so what goes on is all that counts.
    rw [findSome?_filter fun x _ hx => ?_] at hgoingOn
    · rw [← hgoingOn, ih hmore]
      cases goingOn found <;> rfl
    · obtain ⟨start, way⟩ := x
      cases way with
      | none => rfl
      | some t => cases hx

/-- The engine tells whether some match of a pattern takes a whole text. -/
theorem matchesAll_eq (flags : Flags) (p : Pattern) (text : List Char) :
    p.matchesAll flags text = (p.backtrack flags (.ofText text) atEnd?).isSome := by
  have within : AreStartedWithin (p.atomicDepth + 1) [⟨0, ⟨0, [p]⟩⟩] :=
    areStartedWithin_whole (Nat.le_succ _)
  rw [matchesAll, reachesEnd_eq (faithful_waysAt flags p) within, tryStarted_whole,
    Option.isSome_map]
  rfl

end Rulebook.Pattern
