import Rulebook.Pattern.Match
import Rulebook.Proofs.Pattern.Backtrack

/-! # What threads come to

To follow all threads of a pattern at once comes to the same as to try them one after another:
ways are in the order in which they are tried, and of equal ways only the first can be the one
that counts.
-/

namespace Rulebook.Pattern

variable {β : Type} {flags : Flags} {atomicLength? : Pattern → Cursor → Option Nat}

/-! ## Sequences of ways -/

theorem findSome?_filter {α : Type} {f : α → Option β} {isKept : α → Bool} {xs : List α}
    (h : ∀ x ∈ xs, isKept x = false → f x = none) :
    (xs.filter isKept).findSome? f = xs.findSome? f := by
  induction xs with
  | nil => rfl
  | cons x rest ih =>
    obtain ⟨hx, hrest⟩ := List.forall_mem_cons.mp h
    rw [List.filter_cons]
    split
    · rw [List.findSome?_cons, List.findSome?_cons, ih hrest]
    · next hkept => rw [List.findSome?_cons, hx (Bool.eq_false_iff.mpr hkept), ih hrest]

theorem findSome?_eraseDups {α : Type} [BEq α] [LawfulBEq α] (f : α → Option β) (xs : List α) :
    xs.eraseDups.findSome? f = xs.findSome? f := by
  induction hlength : xs.length using Nat.strongRecOn generalizing xs with
  | ind length ih =>
    cases xs with
    | nil => rfl
    | cons x rest =>
      rw [List.eraseDups_cons, List.findSome?_cons, List.findSome?_cons]
      cases hx : f x with
      | some found => rfl
      | none =>
        have hshort : (rest.filter fun y => !y == x).length < length :=
          hlength ▸ Nat.lt_succ_of_le (List.length_filter_le _ _)
        rw [ih _ hshort _ rfl]
        refine findSome?_filter fun y _ hy => ?_
        rw [Bool.not_eq_false'] at hy
        rw [eq_of_beq hy, hx]

theorem findSome?_flatMap {α γ : Type} (f : γ → Option β) (g : α → List γ) (xs : List α) :
    (xs.flatMap g).findSome? f = xs.findSome? fun x => (g x).findSome? f := by
  induction xs with
  | nil => rfl
  | cons x rest ih =>
    rw [List.flatMap_cons, List.findSome?_append, List.findSome?_cons, ih]
    cases (g x).findSome? f <;> rfl

/-! ## What ways come to -/

/-- Tries to go on from a thread: after the characters that it waits for, by its patterns. -/
def Thread.backtrack (flags : Flags) (t : Thread) (c : Cursor) (goOn : Cursor → Option β) :
    Option β :=
  if t.wait ≤ c.rest.length then (inTurn t.rest).backtrack flags (c.move t.wait) goOn else none

namespace Ways

/-- Tries to go on by one way: at once, or from a thread behind the next character. -/
def goBy (flags : Flags) (c : Cursor) (goOn : Cursor → Option β) : Option Thread → Option β
  | none => goOn c
  | some t => if c.rest.isEmpty then none else t.backtrack flags (c.move 1) goOn

/-- Tries to go on by some ways in order. -/
def backtrack (flags : Flags) (ways : Ways) (c : Cursor) (goOn : Cursor → Option β) : Option β :=
  ways.findSome? (goBy flags c goOn)

end Ways

variable {c : Cursor} {goOn : Cursor → Option β}

theorem Thread.backtrack_followedBy (t : Thread) (more : List Pattern) :
    (t.followedBy more).backtrack flags c goOn =
      t.backtrack flags c fun d => (inTurn more).backtrack flags d goOn := by
  unfold backtrack followedBy
  rw [backtrack_inTurn_append]

theorem Thread.backtrack_congr {t : Thread} {goOn' : Cursor → Option β}
    (h : ∀ n ≤ c.rest.length, goOn (c.move n) = goOn' (c.move n)) :
    t.backtrack flags c goOn = t.backtrack flags c goOn' := by
  unfold backtrack
  split
  · refine Pattern.backtrack_congr fun n hn => ?_
    rw [Cursor.move_rest, List.length_drop] at hn
    rw [← Cursor.move_add]
    exact h _ (by omega)
  · rfl

namespace Ways

theorem backtrack_eraseDups (ways : Ways) :
    backtrack flags ways.eraseDups c goOn = ways.backtrack flags c goOn :=
  findSome?_eraseDups _ ways

theorem backtrack_append (first second : Ways) :
    backtrack flags (first ++ second) c goOn =
      (first.backtrack flags c goOn).or (second.backtrack flags c goOn) :=
  List.findSome?_append

theorem backtrack_cons (way : Option Thread) (more : Ways) :
    backtrack flags (way :: more) c goOn =
      (goBy flags c goOn way).or (more.backtrack flags c goOn) := by
  unfold backtrack
  rw [List.findSome?_cons]
  cases goBy flags c goOn way <;> rfl

theorem backtrack_completing (isPossible : Bool) :
    (completing isPossible).backtrack flags c goOn = if isPossible then goOn c else none := by
  cases isPossible with
  | false => rfl
  | true => exact List.findSome?_singleton

/-- To take the next character and then wait for more is to wait for one more. -/
theorem goBy_some (n : Nat) (rest : List Pattern) :
    goBy flags c goOn (some ⟨n, rest⟩) = Thread.backtrack flags ⟨n + 1, rest⟩ c goOn := by
  obtain ⟨offset, last?, text⟩ := c
  cases text with
  | nil => rfl
  | cons next more =>
    exact if_congr Nat.add_le_add_iff_right.symm rfl rfl

theorem backtrack_taking (isAccepted : Char → Bool) :
    (taking isAccepted c).backtrack flags c goOn =
      if c.accepts isAccepted then goOn (c.move 1) else none := by
  unfold taking
  split
  · next haccepts =>
    rw [backtrack, List.findSome?_singleton, goBy_some]
    exact if_pos (Cursor.rest_pos_of_accepts haccepts)
  · rfl

theorem backtrack_skipping {n? : Option Nat} (h : ∀ n ∈ n?, n ≤ c.rest.length) :
    (skipping n?).backtrack flags c goOn = n?.bind fun n => goOn (c.move n) := by
  match n? with
  | none => rfl
  | some 0 => exact List.findSome?_singleton
  | some (n + 1) =>
    rw [backtrack, skipping, List.findSome?_singleton, goBy_some]
    exact if_pos (h _ rfl)

/-- Ways of one pattern and then others come to trying the first and going on with the others, at
once where it takes nothing and further on where it takes something. -/
theorem backtrack_andThen {first waysOfSecond : Ways} {second : List Pattern}
    {goOn' : Cursor → Option β} (hhere : waysOfSecond.backtrack flags c goOn = goOn' c)
    (hfurther : ∀ n < c.rest.length,
      (inTurn second).backtrack flags (c.move (n + 1)) goOn = goOn' (c.move (n + 1))) :
    (first.andThen second waysOfSecond).backtrack flags c goOn = first.backtrack flags c goOn' := by
  rw [andThen, backtrack_eraseDups, backtrack, findSome?_flatMap, backtrack]
  congr 1
  funext way
  cases way with
  | none => exact hhere
  | some t =>
    rw [List.findSome?_singleton, goBy, goBy]
    split
    · rfl
    next hnext =>
    rw [Thread.backtrack_followedBy]
    have hpos : 0 < c.rest.length := List.length_pos_iff.mpr (by simpa using hnext)
    refine Thread.backtrack_congr fun n hn => ?_
    rw [Cursor.move_rest, List.length_drop] at hn
    rw [← Cursor.move_add, Nat.add_comm 1 n]
    exact hfurther n (by omega)

end Ways

/-! ## The ways of a pattern -/

/-- Of atomic patterns that stand within each other less deep than some bound it is known how many
characters their preferred matches take. -/
def ExactTo (flags : Flags) (depth : Nat) (atomicLength? : Pattern → Cursor → Option Nat) : Prop :=
  ∀ body : Pattern, body.atomicDepth < depth → ∀ c : Cursor,
    atomicLength? body c = (body.preferredEnd? flags c).map fun d => d.offset - c.offset

/-- The preferred match of a pattern is some characters long. -/
theorem exists_length_of_preferredEnd? {p : Pattern} {c d : Cursor}
    (h : p.preferredEnd? flags c = some d) :
    d = c.move (d.offset - c.offset) ∧ d.offset - c.offset ≤ c.rest.length := by
  obtain ⟨n, hn, hd⟩ := exists_move_of_backtrack h
  obtain rfl := Option.some.inj hd
  rw [Cursor.move_offset hn, Nat.add_sub_cancel_left]
  exact ⟨rfl, hn⟩

variable {depth : Nat}

theorem backtrack_waysOfAtomic (exact : ExactTo flags depth atomicLength?) {body : Pattern}
    (hbody : body.atomicDepth < depth) :
    (Ways.skipping (atomicLength? body c)).backtrack flags c goOn =
      (atomic body).backtrack flags c goOn := by
  rw [exact body hbody, Ways.backtrack_skipping, backtrack_atomic, Option.bind_map]
  · cases h : body.preferredEnd? flags c with
    | none => rw [show backtrack flags body c some = none from h]; rfl
    | some d =>
      rw [show backtrack flags body c some = some d from h]
      exact congrArg goOn (exists_length_of_preferredEnd? h).1.symm
  · intro n hn
    obtain ⟨d, hd, rfl⟩ := Option.map_eq_some_iff.mp hn
    exact (exists_length_of_preferredEnd? hd).2

/-- The ways of a pattern come to trying it. -/
theorem backtrack_ways (exact : ExactTo flags depth atomicLength?) {p : Pattern}
    (hp : p.atomicDepth ≤ depth) :
    (ways flags atomicLength? c p).backtrack flags c goOn = p.backtrack flags c goOn := by
  induction p generalizing goOn with
  | empty => exact Ways.backtrack_completing true
  | one set => exact Ways.backtrack_taking _
  | dot => exact Ways.backtrack_taking _
  | start => exact Ways.backtrack_completing _
  | stop => exact Ways.backtrack_completing _
  | andThen first second ihfirst ihsecond =>
    rw [backtrack_andThen, ← ihfirst (le_trans (Nat.le_max_left ..) hp)]
    exact Ways.backtrack_andThen (ihsecond (le_trans (Nat.le_max_right ..) hp)) fun n _ => rfl
  | either first second ihfirst ihsecond =>
    rw [backtrack_either, ← ihfirst (le_trans (Nat.le_max_left ..) hp),
      ← ihsecond (le_trans (Nat.le_max_right ..) hp)]
    exact (Ways.backtrack_eraseDups _).trans (Ways.backtrack_append _ _)
  | many body isLazy ih =>
    -- An iteration that takes nothing is the last; behind one that takes something the rest is shorter.
    have hagain : Ways.backtrack flags
        (Ways.andThen (ways flags atomicLength? c body) [many body isLazy] [none]) c goOn =
        body.backtrack flags c fun d => if d.rest.length < c.rest.length then
          (many body isLazy).backtrack flags d goOn else goOn d := by
      rw [← ih hp]
      refine Ways.backtrack_andThen ?_ fun n hn => ?_
      · rw [if_neg (Nat.lt_irrefl _)]
        exact List.findSome?_singleton
      · have hless : (c.move (n + 1)).rest.length < c.rest.length := by
          rw [Cursor.move_rest, List.length_drop]
          omega
        rw [if_pos hless]
        rfl
    rw [backtrack_many, iterate, ways]
    simp only [backtrack_many] at hagain
    rw [← hagain]
    cases isLazy with
    | false =>
      refine (Ways.backtrack_eraseDups _).trans ((Ways.backtrack_append _ _).trans ?_)
      exact congrArg (Option.or _) List.findSome?_singleton
    | true => exact (Ways.backtrack_eraseDups _).trans (Ways.backtrack_cons _ _)
  | atomic body ih => exact backtrack_waysOfAtomic exact hp

/-- The ways of patterns one after another come to trying them so. -/
theorem backtrack_waysOfAll (exact : ExactTo flags depth atomicLength?) {ps : List Pattern}
    (hps : ∀ p ∈ ps, p.atomicDepth ≤ depth) :
    (waysOfAll flags atomicLength? c ps).backtrack flags c goOn =
      (inTurn ps).backtrack flags c goOn := by
  induction ps generalizing goOn with
  | nil => exact Ways.backtrack_completing true
  | cons p rest ih =>
    obtain ⟨hp, hrest⟩ := List.forall_mem_cons.mp hps
    have hfirst : (inTurn (p :: rest)).backtrack flags c goOn =
        p.backtrack flags c fun d => (inTurn rest).backtrack flags d goOn := rfl
    rw [hfirst, ← backtrack_ways exact hp]
    exact Ways.backtrack_andThen (ih hrest) fun n _ => rfl

namespace Thread

/-- A thread whose patterns have atomic patterns within each other no deeper than some bound. -/
def IsWithin (depth : Nat) (t : Thread) : Prop := ∀ p ∈ t.rest, p.atomicDepth ≤ depth

/-- The ways of a thread come to trying to go on from it. -/
theorem backtrack_ways (exact : ExactTo flags depth atomicLength?) {t : Thread}
    (ht : t.IsWithin depth) :
    (t.ways flags atomicLength? c).backtrack flags c goOn = t.backtrack flags c goOn := by
  obtain ⟨wait, rest⟩ := t
  cases wait with
  | zero =>
    refine (backtrack_waysOfAll exact ht).trans ?_
    rw [Thread.backtrack, if_pos (Nat.zero_le _)]
    rfl
  | succ n =>
    change Ways.backtrack flags (if c.accepts fun _ => true then [some ⟨n, rest⟩] else []) c goOn = _
    split
    · rw [Ways.backtrack, List.findSome?_singleton, Ways.goBy_some]
    · next hnone =>
      obtain ⟨offset, last?, text⟩ := c
      cases text with
      | nil => rfl
      | cons next more => exact absurd rfl hnone

end Thread

/-! ## Threads stay within their pattern -/

namespace Ways

/-- Ways whose threads are within a bound. -/
def AreWithin (depth : Nat) (ways : Ways) : Prop := ∀ t, some t ∈ ways → t.IsWithin depth

theorem areWithin_taking (isAccepted : Char → Bool) : (taking isAccepted c).AreWithin depth := by
  intro t ht p hp
  unfold taking at ht
  split at ht
  · obtain rfl := Option.some.inj (List.mem_singleton.mp ht)
    cases hp
  · cases ht

theorem areWithin_completing (isPossible : Bool) : (completing isPossible).AreWithin depth := by
  intro t ht
  cases isPossible <;> simp [completing] at ht

theorem areWithin_skipping (n? : Option Nat) : (skipping n?).AreWithin depth := by
  intro t ht p hp
  match n? with
  | none => cases ht
  | some 0 => simp [skipping] at ht
  | some (n + 1) =>
    obtain rfl := Option.some.inj (List.mem_singleton.mp ht)
    cases hp

theorem areWithin_andThen {first waysOfSecond : Ways} {second : List Pattern}
    (hfirst : first.AreWithin depth) (hsecond : ∀ p ∈ second, p.atomicDepth ≤ depth)
    (hways : waysOfSecond.AreWithin depth) : (first.andThen second waysOfSecond).AreWithin depth := by
  intro t ht
  obtain ⟨way, hway, hmem⟩ := List.mem_flatMap.mp (List.mem_eraseDups.mp ht)
  cases way with
  | none => exact hways t hmem
  | some first =>
    obtain rfl := Option.some.inj (List.mem_singleton.mp hmem)
    exact fun p hp => (List.mem_append.mp hp).elim (hfirst first hway p) (hsecond p)

end Ways

theorem areWithin_ways {p : Pattern} (hp : p.atomicDepth ≤ depth) :
    (ways flags atomicLength? c p).AreWithin depth := by
  induction p with
  | empty => exact Ways.areWithin_completing true
  | one set => exact Ways.areWithin_taking _
  | dot => exact Ways.areWithin_taking _
  | start => exact Ways.areWithin_completing _
  | stop => exact Ways.areWithin_completing _
  | andThen first second ihfirst ihsecond =>
    have hsecond : second.atomicDepth ≤ depth := le_trans (Nat.le_max_right ..) hp
    exact Ways.areWithin_andThen (ihfirst (le_trans (Nat.le_max_left ..) hp))
      (List.forall_mem_singleton.mpr hsecond) (ihsecond hsecond)
  | either first second ihfirst ihsecond =>
    intro t ht
    obtain ht | ht := List.mem_append.mp (List.mem_eraseDups.mp ht)
    · exact ihfirst (le_trans (Nat.le_max_left ..) hp) t ht
    · exact ihsecond (le_trans (Nat.le_max_right ..) hp) t ht
  | many body isLazy ih =>
    have hagain := Ways.areWithin_andThen (ih hp)
      (List.forall_mem_singleton.mpr (show (many body isLazy).atomicDepth ≤ depth from hp))
      (Ways.areWithin_completing true)
    intro t ht
    have ht := List.mem_eraseDups.mp ht
    cases isLazy with
    | false =>
      obtain ht | ht := List.mem_append.mp ht
      · exact hagain t ht
      · simp at ht
    | true =>
      obtain ht | ht := List.mem_cons.mp ht
      · cases ht
      · exact hagain t ht
  | atomic body ih => exact Ways.areWithin_skipping _

theorem areWithin_waysOfAll {ps : List Pattern} (hps : ∀ p ∈ ps, p.atomicDepth ≤ depth) :
    (waysOfAll flags atomicLength? c ps).AreWithin depth := by
  induction ps with
  | nil => exact Ways.areWithin_completing true
  | cons p rest ih =>
    obtain ⟨hp, hrest⟩ := List.forall_mem_cons.mp hps
    exact Ways.areWithin_andThen (areWithin_ways hp) hrest (ih hrest)

/-- The ways of a thread lead to threads within the same bound. -/
theorem Thread.areWithin_ways {t : Thread} (ht : t.IsWithin depth) :
    (t.ways flags atomicLength? c).AreWithin depth := by
  unfold ways
  split
  · exact areWithin_waysOfAll ht
  · split
    · intro t' ht'
      obtain rfl := Option.some.inj (List.mem_singleton.mp ht')
      exact ht
    · exact fun t' ht' => absurd ht' List.not_mem_nil

end Rulebook.Pattern
