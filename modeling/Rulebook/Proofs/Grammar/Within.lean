import Mathlib.Data.List.Forall2
import Rulebook.Grammar.Equality

/-! # Values part by part

A question about all that stands within a value is one about its parts, and so is whether two
values are equal.
-/

namespace Rulebook.Value

section Within

variable (p : Value → Bool)

theorem anyAmong_eq_any (vs : List Value) : anyAmong p vs = vs.any fun v => v.anyWithin p := by
  induction vs with
  | nil => rw [anyAmong, List.any_nil]
  | cons v rest ih => rw [anyAmong, ih, List.any_cons]

theorem anyAmongBranches_eq_any (branches : List (List Value)) :
    anyAmongBranches p branches = branches.any (anyAmong p) := by
  induction branches with
  | nil => rw [anyAmongBranches, List.any_nil]
  | cons elements rest ih => rw [anyAmongBranches, ih, List.any_cons]

theorem anyAmongOptions_eq_any (options : List (Value × Value)) :
    anyAmongOptions p options = options.any fun o => o.1.anyWithin p || o.2.anyWithin p := by
  induction options with
  | nil => rw [anyAmongOptions, List.any_nil]
  | cons o rest ih => rw [anyAmongOptions, ih, List.any_cons]

end Within

section Same

variable {ordered : Bool}

theorem sameAll_iff {as bs : List Value} :
    sameAll ordered as bs = true ↔ List.Forall₂ (fun a b => a.sameWith ordered b = true) as bs := by
  induction as generalizing bs with
  | nil => cases bs <;> simp [sameAll]
  | cons a rest ih =>
      cases bs with
      | nil => simp [sameAll]
      | cons b more => rw [sameAll, Bool.and_eq_true, ih, List.forall₂_cons]

theorem sameBranches_iff {as bs : List (List Value)} :
    sameBranches ordered as bs = true ↔
      List.Forall₂ (fun a b => sameAll ordered a b = true) as bs := by
  induction as generalizing bs with
  | nil => cases bs <;> simp [sameBranches]
  | cons a rest ih =>
      cases bs with
      | nil => simp [sameBranches]
      | cons b more => rw [sameBranches, Bool.and_eq_true, ih, List.forall₂_cons]

theorem sameEach_iff {as bs : List (Value × Value)} :
    sameEach ordered as bs = true ↔
      List.Forall₂ (fun a b => a.1.sameWith ordered b.1 = true ∧ a.2.sameWith ordered b.2 = true)
        as bs := by
  induction as generalizing bs with
  | nil => cases bs <;> simp [sameEach]
  | cons a rest ih =>
      cases bs with
      | nil => simp [sameEach]
      | cons b more => rw [sameEach, Bool.and_eq_true, Bool.and_eq_true, ih, List.forall₂_cons]

theorem sameOptions_iff {as bs : List (Value × Value)} :
    sameOptions ordered as bs = true ↔
      ∀ a ∈ as, ∃ b ∈ bs, a.1.sameWith true b.1 = true ∧ a.2.sameWith ordered b.2 = true := by
  induction as with
  | nil => simp [sameOptions]
  | cons a rest ih =>
      rw [sameOptions, Bool.and_eq_true, ih, List.forall_mem_cons, List.any_eq_true]
      simp only [Bool.and_eq_true]

end Same

end Rulebook.Value
