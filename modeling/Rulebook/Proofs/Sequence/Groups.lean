import Mathlib.Data.List.Basic
import Mathlib.Data.List.Induction
import Mathlib.Data.List.ModifyLast
import Rulebook.Proofs.Sequence

/-! # Groups between boundaries

To divide a sequence at its boundaries is to undo a joining of groups. The groups hold no
boundary, there is one more of them than there are boundaries, and with the boundaries between
them again they make up the sequence. No other groups do so. The items can also be taken one by
one: each of them goes on with the last group or opens another one.
-/

namespace Rulebook.Sequence

variable {α : Type} {isBoundary : α → Bool}

/-! ## Joining groups -/

/-- Groups one behind the other, with an item behind each of them. With one group more than there
are items, the items stand between the groups. -/
def interleave : List (List α) → List α → List α
  | group :: more, x :: items => group ++ x :: interleave more items
  | gs, _ => gs.flatten

theorem interleave_singleton (group : List α) : interleave [group] [] = group :=
  List.flatten_singleton

theorem interleave_append {front : List (List α)} {bs : List α} (h : front.length = bs.length)
    (gs : List (List α)) (items : List α) :
    interleave (front ++ gs) (bs ++ items) = interleave front bs ++ interleave gs items := by
  induction front generalizing bs with
  | nil =>
      obtain rfl : bs = [] := List.length_eq_zero_iff.mp h.symm
      rfl
  | cons group more ih =>
      obtain ⟨b, rest, rfl⟩ := List.exists_cons_of_length_eq_add_one h.symm
      have hmore : more.length = rest.length := Nat.succ.inj h
      simp only [List.cons_append, interleave, ih hmore, List.append_assoc]

/-- The boundaries of groups that are joined are those that join them. -/
theorem filter_interleave {gs : List (List α)} {bs : List α}
    (hgs : ∀ group ∈ gs, ∀ x ∈ group, isBoundary x = false) (hbs : ∀ b ∈ bs, isBoundary b)
    (hlength : gs.length = bs.length + 1) : (interleave gs bs).filter isBoundary = bs := by
  induction bs generalizing gs with
  | nil =>
      obtain ⟨group, rfl⟩ := List.length_eq_one_iff.mp hlength
      simpa [interleave_singleton] using hgs
  | cons b rest ih =>
      obtain ⟨group, more, rfl⟩ := List.exists_cons_of_length_eq_add_one hlength
      obtain ⟨hgroup, hmore⟩ := List.forall_mem_cons.mp hgs
      obtain ⟨hb, hrest⟩ := List.forall_mem_cons.mp hbs
      have hnone : group.filter isBoundary = [] := by simpa using hgroup
      rw [interleave, List.filter_append, hnone, List.nil_append, List.filter_cons_of_pos hb,
        ih hmore hrest (Nat.succ.inj hlength)]

/-! ## Dividing a sequence -/

theorem groups_eq_splitOnP (isBoundary : α → Bool) (xs : List α) :
    groups isBoundary xs = xs.splitOnP isBoundary := by
  induction xs with
  | nil => rfl
  | cons x rest ih =>
      rw [groups, List.splitOnP_cons_eq_if_modifyHead, ih]
      split
      · rfl
      · split
        · next hsplit => exact absurd hsplit (List.splitOnP_ne_nil _ _)
        · next hsplit => rw [hsplit, List.modifyHead_cons]

/-- Groups that boundaries join are divided again. -/
theorem groups_interleave {gs : List (List α)} {bs : List α}
    (hgs : ∀ group ∈ gs, ∀ x ∈ group, isBoundary x = false) (hbs : ∀ b ∈ bs, isBoundary b)
    (hlength : gs.length = bs.length + 1) : groups isBoundary (interleave gs bs) = gs := by
  rw [groups_eq_splitOnP]
  induction bs generalizing gs with
  | nil =>
      obtain ⟨group, rfl⟩ := List.length_eq_one_iff.mp hlength
      rw [interleave_singleton]
      exact List.splitOnP_eq_singleton (hgs group List.mem_cons_self)
  | cons b rest ih =>
      obtain ⟨group, more, rfl⟩ := List.exists_cons_of_length_eq_add_one hlength
      obtain ⟨hgroup, hmore⟩ := List.forall_mem_cons.mp hgs
      obtain ⟨hb, hrest⟩ := List.forall_mem_cons.mp hbs
      rw [interleave, List.splitOnP_append_cons_of_forall_mem hgroup b hb,
        ih hmore hrest (Nat.succ.inj hlength)]

/-- A sequence in groups: no group holds a boundary, there is one group more than there are
boundaries, and with the boundaries between them the groups make up the sequence. -/
structure IsGrouping (isBoundary : α → Bool) (gs : List (List α)) (xs : List α) : Prop where
  not_isBoundary : ∀ group ∈ gs, ∀ x ∈ group, isBoundary x = false
  length_eq : gs.length = xs.countP isBoundary + 1
  interleave_eq : interleave gs (xs.filter isBoundary) = xs

/-- A sequence is in groups in one way only. -/
theorem IsGrouping.groups_eq {gs : List (List α)} {xs : List α}
    (h : IsGrouping isBoundary gs xs) : groups isBoundary xs = gs := by
  have hlength : gs.length = (xs.filter isBoundary).length + 1 := by
    rw [h.length_eq, List.countP_eq_length_filter]
  have hgroups := groups_interleave h.not_isBoundary (fun b hb => (List.mem_filter.mp hb).2) hlength
  rwa [h.interleave_eq] at hgroups

/-- In front of the last group, each group has a boundary behind it. -/
theorem IsGrouping.exists_concat {gs : List (List α)} {xs : List α}
    (h : IsGrouping isBoundary gs xs) :
    ∃ front last, gs = front ++ [last] ∧ front.length = (xs.filter isBoundary).length ∧
      interleave front (xs.filter isBoundary) ++ last = xs := by
  have hlength := h.length_eq
  obtain rfl | ⟨front, last, rfl⟩ := List.eq_nil_or_concat' gs
  · cases hlength
  have hfront : front.length = (xs.filter isBoundary).length := by
    rw [← List.countP_eq_length_filter]
    simpa using hlength
  have hjoined := interleave_append hfront [last] []
  rw [List.append_nil, h.interleave_eq, interleave_singleton] at hjoined
  exact ⟨front, last, rfl, hfront, hjoined.symm⟩

/-! ## Taking items one by one -/

/-- Takes one more item: a boundary opens another group, and any other item goes to the last one. -/
def place (isBoundary : α → Bool) (gs : List (List α)) (x : α) : List (List α) :=
  if isBoundary x then gs ++ [[]] else gs.modifyLast (· ++ [x])

/-- One more item leaves a sequence in groups. -/
theorem isGrouping_place {gs : List (List α)} {xs : List α} (h : IsGrouping isBoundary gs xs)
    (x : α) : IsGrouping isBoundary (place isBoundary gs x) (xs ++ [x]) := by
  obtain ⟨front, last, rfl, hfront, hjoined⟩ := h.exists_concat
  have hlength := h.length_eq
  obtain ⟨hfree, hlast⟩ := List.forall_mem_append.mp h.not_isBoundary
  -- The groups in front of the last one stay as they are, each with its boundary behind it.
  cases hx : isBoundary x with
  | true =>
      have hplace : place isBoundary (front ++ [last]) x = front ++ [last, []] := by
        simp [place, hx]
      have hfilter : (xs ++ [x]).filter isBoundary = xs.filter isBoundary ++ [x] := by simp [hx]
      refine hplace ▸ ⟨?_, ?_, ?_⟩
      · exact List.forall_mem_append.mpr ⟨hfree, by simpa using hlast⟩
      · simpa [hx] using hlength
      · rw [hfilter, interleave_append hfront]
        simp [interleave, ← List.append_assoc, hjoined]
  | false =>
      have hplace : place isBoundary (front ++ [last]) x = front ++ [last ++ [x]] := by
        simp [place, hx, List.modifyLast_concat]
      have hfilter : (xs ++ [x]).filter isBoundary = xs.filter isBoundary ++ [] := by simp [hx]
      refine hplace ▸ ⟨?_, ?_, ?_⟩
      · exact List.forall_mem_append.mpr ⟨hfree, by simpa [or_imp, forall_and, hx] using hlast⟩
      · simpa [hx] using hlength
      · rw [hfilter, interleave_append hfront, interleave_singleton, ← List.append_assoc, hjoined]

/-- Item by item, a sequence comes into groups. -/
theorem isGrouping_foldl (isBoundary : α → Bool) (xs : List α) :
    IsGrouping isBoundary (xs.foldl (place isBoundary) [[]]) xs := by
  induction xs using List.reverseRecOn with
  | nil => exact ⟨by simp, rfl, rfl⟩
  | append_singleton xs x ih =>
      rw [List.foldl_concat]
      exact isGrouping_place ih x

/-- To divide a sequence is to undo a joining of groups. A sequence is in groups in one way only,
which is the one that its division gives, all at once or item by item; and groups without
boundaries that boundaries join are divided into the same groups, with the same boundaries left
out. -/
theorem groups_inverse_interleave (isBoundary : α → Bool) :
    (∀ xs gs, IsGrouping isBoundary gs xs ↔ groups isBoundary xs = gs) ∧
      (∀ xs : List α, xs.foldl (place isBoundary) [[]] = groups isBoundary xs) ∧
      ∀ (gs : List (List α)) (bs : List α), (∀ group ∈ gs, ∀ x ∈ group, isBoundary x = false) →
        (∀ b ∈ bs, isBoundary b) → gs.length = bs.length + 1 →
          groups isBoundary (interleave gs bs) = gs ∧
            (interleave gs bs).filter isBoundary = bs := by
  have hfoldl : ∀ xs : List α, xs.foldl (place isBoundary) [[]] = groups isBoundary xs := fun xs =>
    (isGrouping_foldl isBoundary xs).groups_eq.symm
  refine ⟨fun xs gs => ⟨IsGrouping.groups_eq, ?_⟩, hfoldl, ?_⟩
  · rintro rfl
    rw [← hfoldl]
    exact isGrouping_foldl isBoundary xs
  · intro gs bs hgs hbs hlength
    exact ⟨groups_interleave hgs hbs hlength, filter_interleave hgs hbs hlength⟩

/-- Bars and slashes. -/
def isMark (c : Char) : Bool := c = '|' || c = '/'

/-- Groups of letters, some of them empty. -/
def letterGroups : List (List Char) := [[], ['a'], [], [], ['b', 'c'], []]

/-- Marks that stand between these groups. -/
def groupMarks : List Char := ['|', '/', '|', '/', '|']

/-- The groups with the marks between them. -/
def markedLetters : List Char := ['|', 'a', '/', '|', '/', 'b', 'c', '|']

theorem groups_inverse_interleave_letters :
    (∀ group ∈ letterGroups, ∀ c ∈ group, isMark c = false) ∧ (∀ c ∈ groupMarks, isMark c) ∧
      letterGroups.length = groupMarks.length + 1 ∧
      interleave letterGroups groupMarks = markedLetters ∧
      IsGrouping isMark letterGroups markedLetters ∧
      markedLetters.foldl (place isMark) [[]] = letterGroups ∧
      markedLetters.filter isMark = groupMarks := by
  obtain ⟨hunique, hfoldl, hjoin⟩ := groups_inverse_interleave isMark
  have hletters : ∀ group ∈ letterGroups, ∀ c ∈ group, isMark c = false := by
    simp [letterGroups, isMark]
  have hmarks : ∀ c ∈ groupMarks, isMark c := by
    simp [groupMarks, isMark]
  obtain ⟨hgroups, hfilter⟩ : groups isMark markedLetters = letterGroups ∧
      markedLetters.filter isMark = groupMarks := hjoin letterGroups groupMarks hletters hmarks rfl
  refine ⟨hletters, hmarks, rfl, rfl, (hunique _ _).mpr hgroups, ?_, hfilter⟩
  rw [hfoldl, hgroups]

end Rulebook.Sequence
