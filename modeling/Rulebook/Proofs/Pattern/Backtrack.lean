import Mathlib.Data.List.TakeWhile
import Rulebook.Pattern.Backtrack

/-! # What trying finds

Equations for trying, one for each form of a pattern, and what follows for the forms that leave
no choice: a greedy run of characters of a set goes as far as it can if what follows never
fails.
-/

namespace Rulebook.Pattern

variable {β : Type} {flags : Flags} {goOn : Cursor → Option β}

/-! ## Places -/

namespace Cursor

@[simp] theorem accepts_nil (isAccepted : Char → Bool) (offset : Nat) (last? : Option Char) :
    accepts isAccepted ⟨offset, last?, []⟩ = false := rfl

@[simp] theorem accepts_cons (isAccepted : Char → Bool) (offset : Nat) (last? : Option Char)
    (next : Char) (more : List Char) :
    accepts isAccepted ⟨offset, last?, next :: more⟩ = isAccepted next := rfl

theorem rest_pos_of_accepts {isAccepted : Char → Bool} {c : Cursor}
    (h : c.accepts isAccepted = true) : 0 < c.rest.length := by
  obtain ⟨offset, last?, text⟩ := c
  cases text with
  | nil => cases h
  | cons next more => exact Nat.succ_pos _

end Cursor

/-! ## Equations -/

@[simp] theorem backtrack_empty (c : Cursor) : backtrack flags empty c goOn = goOn c := rfl

@[simp] theorem backtrack_one (set : CharSet) (c : Cursor) :
    backtrack flags (one set) c goOn =
      if c.accepts (set.has flags) then goOn (c.move 1) else none := rfl

@[simp] theorem backtrack_dot (c : Cursor) :
    backtrack flags dot c goOn =
      if c.accepts fun next => flags.dotAll || next ≠ '\n' then goOn (c.move 1) else none := rfl

@[simp] theorem backtrack_andThen (first second : Pattern) (c : Cursor) :
    backtrack flags (andThen first second) c goOn =
      backtrack flags first c fun d => backtrack flags second d goOn := rfl

@[simp] theorem backtrack_either (first second : Pattern) (c : Cursor) :
    backtrack flags (either first second) c goOn =
      (backtrack flags first c goOn).or (backtrack flags second c goOn) := rfl

@[simp] theorem backtrack_many (body : Pattern) (isLazy : Bool) (c : Cursor) :
    backtrack flags (many body isLazy) c goOn =
      iterate (fun d => backtrack flags body d) isLazy goOn c := rfl

@[simp] theorem backtrack_atomic (body : Pattern) (c : Cursor) :
    backtrack flags (atomic body) c goOn = (backtrack flags body c some).bind goOn := rfl

/-! ## Sequences -/

/-- Patterns one after another. -/
def inTurn (ps : List Pattern) : Pattern := ps.foldr andThen empty

theorem backtrack_inTurn_append (ps qs : List Pattern) (c : Cursor) :
    backtrack flags (inTurn (ps ++ qs)) c goOn =
      backtrack flags (inTurn ps) c fun d => backtrack flags (inTurn qs) d goOn := by
  induction ps generalizing c with
  | nil => rfl
  | cons p rest ih =>
    have hrest : ∀ d, backtrack flags (inTurn (rest ++ qs)) d goOn = _ := ih
    exact congrArg (backtrack flags p c) (funext hrest)

/-! ## Where trying leads -/

/-- Going on is tried at places further on only. -/
theorem exists_move_of_iterate {body : Cursor → (Cursor → Option β) → Option β}
    (hbody : ∀ {c : Cursor} {k : Cursor → Option β} {r : β}, body c k = some r →
      ∃ n ≤ c.rest.length, k (c.move n) = some r)
    {isLazy : Bool} {c : Cursor} {r : β} (h : iterate body isLazy goOn c = some r) :
    ∃ n ≤ c.rest.length, goOn (c.move n) = some r := by
  induction hlength : c.rest.length using Nat.strongRecOn generalizing c with
  | ind length ih =>
    rw [iterate] at h
    have hagain : (body c fun d => if d.rest.length < c.rest.length then iterate body isLazy goOn d
        else goOn d) = some r → ∃ n ≤ length, goOn (c.move n) = some r := by
      intro hagain
      obtain ⟨m, hm, hnext⟩ := hbody hagain
      split at hnext
      · next hless =>
        obtain ⟨n, hn, hgoOn⟩ := ih _ (hlength ▸ hless) hnext rfl
        rw [Cursor.move_rest, List.length_drop] at hn
        exact ⟨m + n, by omega, by rw [Cursor.move_add, hgoOn]⟩
      · exact ⟨m, hlength ▸ hm, hnext⟩
    cases isLazy with
    | false =>
      obtain hfirst | ⟨-, hsecond⟩ := Option.or_eq_some_iff.mp h
      · exact hagain hfirst
      · exact ⟨0, Nat.zero_le _, hsecond⟩
    | true =>
      obtain hfirst | ⟨-, hsecond⟩ := Option.or_eq_some_iff.mp h
      · exact ⟨0, Nat.zero_le _, hfirst⟩
      · exact hagain hsecond

theorem exists_move_of_take {isAccepted : Char → Bool} {c : Cursor} {r : β}
    (h : (if c.accepts isAccepted then goOn (c.move 1) else none) = some r) :
    ∃ n ≤ c.rest.length, goOn (c.move n) = some r := by
  split at h
  · next haccepts => exact ⟨1, Cursor.rest_pos_of_accepts haccepts, h⟩
  · cases h

theorem exists_move_of_stay {isPossible : Bool} {c : Cursor} {r : β}
    (h : (if isPossible then goOn c else none) = some r) :
    ∃ n ≤ c.rest.length, goOn (c.move n) = some r := by
  split at h
  · exact ⟨0, Nat.zero_le _, h⟩
  · cases h

/-- Going on is tried at places further on only. -/
theorem exists_move_of_backtrack {p : Pattern} {c : Cursor} {r : β}
    (h : backtrack flags p c goOn = some r) : ∃ n ≤ c.rest.length, goOn (c.move n) = some r := by
  induction p generalizing β c r with
  | empty => exact ⟨0, Nat.zero_le _, h⟩
  | one set => exact exists_move_of_take h
  | dot => exact exists_move_of_take h
  | start => exact exists_move_of_stay h
  | stop => exact exists_move_of_stay h
  | andThen first second ihfirst ihsecond =>
    obtain ⟨m, hm, hsecond⟩ := ihfirst h
    obtain ⟨n, hn, hgoOn⟩ := ihsecond hsecond
    rw [Cursor.move_rest, List.length_drop] at hn
    exact ⟨m + n, by omega, by rw [Cursor.move_add, hgoOn]⟩
  | either first second ihfirst ihsecond =>
    obtain hfirst | ⟨-, hsecond⟩ := Option.or_eq_some_iff.mp h
    · exact ihfirst hfirst
    · exact ihsecond hsecond
  | many body isLazy ih => exact exists_move_of_iterate ih h
  | atomic body ih =>
    obtain ⟨d, hbody, hgoOn⟩ := Option.bind_eq_some_iff.mp h
    obtain ⟨n, hn, hd⟩ := ih hbody
    exact ⟨n, hn, Option.some.inj hd ▸ hgoOn⟩

theorem iterate_congr {body : Cursor → (Cursor → Option β) → Option β}
    (hbody : ∀ {c : Cursor} {k k' : Cursor → Option β},
      (∀ n ≤ c.rest.length, k (c.move n) = k' (c.move n)) → body c k = body c k')
    {isLazy : Bool} {goOn' : Cursor → Option β} {c : Cursor}
    (h : ∀ n ≤ c.rest.length, goOn (c.move n) = goOn' (c.move n)) :
    iterate body isLazy goOn c = iterate body isLazy goOn' c := by
  induction hlength : c.rest.length using Nat.strongRecOn generalizing c with
  | ind length ih =>
    rw [iterate, iterate, show goOn c = goOn' c from h 0 (Nat.zero_le _)]
    have hagain : (body c fun d => if d.rest.length < c.rest.length then iterate body isLazy goOn d
        else goOn d) = body c fun d => if d.rest.length < c.rest.length then
          iterate body isLazy goOn' d else goOn' d := by
      refine hbody fun m hm => ?_
      split
      · next hless =>
        refine ih _ (hlength ▸ hless) (fun n hn => ?_) rfl
        rw [Cursor.move_rest, List.length_drop] at hn
        rw [← Cursor.move_add]
        exact h _ (by omega)
      · exact h m hm
    simp only [hagain]

theorem take_congr {isAccepted : Char → Bool} {goOn' : Cursor → Option β} {c : Cursor}
    (h : ∀ n ≤ c.rest.length, goOn (c.move n) = goOn' (c.move n)) :
    (if c.accepts isAccepted then goOn (c.move 1) else none) =
      if c.accepts isAccepted then goOn' (c.move 1) else none := by
  split
  · next haccepts => exact h 1 (Cursor.rest_pos_of_accepts haccepts)
  · rfl

/-- What is tried depends on how it is possible to go on from places further on only. -/
theorem backtrack_congr {p : Pattern} {goOn' : Cursor → Option β} {c : Cursor}
    (h : ∀ n ≤ c.rest.length, goOn (c.move n) = goOn' (c.move n)) :
    backtrack flags p c goOn = backtrack flags p c goOn' := by
  have hstay : goOn c = goOn' c := h 0 (Nat.zero_le _)
  induction p generalizing c goOn goOn' with
  | empty => exact hstay
  | one set => exact take_congr h
  | dot => exact take_congr h
  | start => exact congrArg (fun found => if c.isStart flags then found else none) hstay
  | stop => exact congrArg (fun found => if c.isStop flags then found else none) hstay
  | andThen first second ihfirst ihsecond =>
    have hsecond : ∀ m ≤ c.rest.length, backtrack flags second (c.move m) goOn =
        backtrack flags second (c.move m) goOn' := by
      intro m hm
      refine ihsecond (fun n hn => ?_) (h m hm)
      rw [Cursor.move_rest, List.length_drop] at hn
      rw [← Cursor.move_add]
      exact h _ (by omega)
    exact ihfirst hsecond (hsecond 0 (Nat.zero_le _))
  | either first second ihfirst ihsecond =>
    exact congrArg₂ Option.or (ihfirst h hstay) (ihsecond h hstay)
  | many body isLazy ih =>
    refine iterate_congr (fun {d k k'} hk => ?_) h
    exact ih hk (hk 0 (Nat.zero_le _))
  | atomic body ih =>
    rw [backtrack_atomic, backtrack_atomic]
    cases hbody : backtrack flags body c some with
    | none => rfl
    | some d =>
      obtain ⟨n, hn, hd⟩ := exists_move_of_backtrack hbody
      exact Option.some.inj hd ▸ h n hn

/-! ## Runs -/

/-- A greedy run goes as far as it can if it is always possible to go on. -/
theorem iterate_one_of_isSome (set : CharSet) (hgoOn : ∀ d, (goOn d).isSome) (c : Cursor) :
    iterate (fun d => backtrack flags (one set) d) false goOn c =
      goOn (c.move (c.rest.takeWhile (set.has flags)).length) := by
  obtain ⟨offset, last?, text⟩ := c
  induction text generalizing offset last? with
  | nil =>
    rw [iterate]
    simp
  | cons next more ih =>
    rw [iterate]
    by_cases hnext : set.has flags next
    · obtain ⟨found, hfound⟩ := Option.isSome_iff_exists.mp
        (hgoOn (Cursor.move (more.takeWhile (set.has flags)).length ⟨offset + 1, some next, more⟩))
      simp [hnext, ih, hfound]
    · simp [hnext]

end Rulebook.Pattern
