import Mathlib.Data.List.Forall2
import Rulebook.Proofs.Reading
import Rulebook.Proofs.Sequence

/-! # Steps side by side

Two steps are related if both succeed with related results or both fail with related errors,
and two sequences are if their items are, one by one. What goes from step to step and from
item to item keeps the relation.
-/

namespace Rulebook

variable {ε α β γ δ : Type}

/-- Both steps succeed with related results, or both fail with related errors. -/
inductive Related (E : ε → ε → Prop) (R : α → β → Prop) : Except ε α → Except ε β → Prop
  | ok {a : α} {b : β} (h : R a b) : Related E R (.ok a) (.ok b)
  | error {e f : ε} (h : E e f) : Related E R (.error e) (.error f)

namespace Related

variable {E : ε → ε → Prop} {R : α → β → Prop} {S : γ → δ → Prop}

/-- Two steps in sequence are related if the first ones are, and the second ones after related
results. -/
theorem bind {x : Except ε α} {y : Except ε β} {f : α → Except ε γ} {g : β → Except ε δ}
    (h : Related E R x y) (next : ∀ a b, R a b → Related E S (f a) (g b)) :
    Related E S (x >>= f) (y >>= g) := by
  cases h with
  | ok h => exact next _ _ h
  | error h => exact .error h

/-- Loops that collect results are related if they are so at every item. -/
theorem mapM {xs : List α} {ys : List β} {f : α → Except ε γ} {g : β → Except ε δ}
    (h : List.Forall₂ (fun x y => Related E S (f x) (g y)) xs ys) :
    Related E (List.Forall₂ S) (xs.mapM f) (ys.mapM g) := by
  induction h with
  | nil => exact .ok .nil
  | cons hx _ ih =>
      rw [List.mapM_cons, List.mapM_cons]
      exact hx.bind fun _ _ hhead => ih.bind fun _ _ htail => .ok (.cons hhead htail)

/-- Loops with a state are related if each item keeps the states related. -/
theorem foldlM {xs : List γ} {ys : List δ} {f : α → γ → Except ε α} {g : β → δ → Except ε β}
    {a : α} {b : β} (start : R a b)
    (h : List.Forall₂ (fun x y => ∀ a b, R a b → Related E R (f a x) (g b y)) xs ys) :
    Related E R (xs.foldlM f a) (ys.foldlM g b) := by
  induction h generalizing a b with
  | nil => exact .ok start
  | cons hx _ ih =>
      rw [List.foldlM_cons, List.foldlM_cons]
      exact (hx a b start).bind fun _ _ hstate => ih hstate

end Related

namespace Sequence

variable {R : α → β → Prop} {xs : List α} {ys : List β}

theorem any_eq_of_forall₂ {p : α → Bool} {q : β → Bool}
    (h : List.Forall₂ (fun x y => p x = q y) xs ys) : xs.any p = ys.any q := by
  induction h with
  | nil => rfl
  | cons hx _ ih => rw [List.any_cons, List.any_cons, hx, ih]

section Classes

variable {p : α → Bool} {q : β → Bool} (hclass : ∀ x y, R x y → p x = q y)
include hclass

theorem forall₂_takeWhile (h : List.Forall₂ R xs ys) :
    List.Forall₂ R (xs.takeWhile p) (ys.takeWhile q) := by
  induction h with
  | nil => exact .nil
  | @cons x y _ _ hx _ ih =>
      rw [List.takeWhile_cons, List.takeWhile_cons, hclass x y hx]
      split
      · exact .cons hx ih
      · exact .nil

theorem forall₂_dropWhile (h : List.Forall₂ R xs ys) :
    List.Forall₂ R (xs.dropWhile p) (ys.dropWhile q) := by
  induction h with
  | nil => exact .nil
  | @cons x y _ _ hx hrest ih =>
      rw [List.dropWhile_cons, List.dropWhile_cons, hclass x y hx]
      split
      · exact ih
      · exact .cons hx hrest

theorem forall₂_groups (h : List.Forall₂ R xs ys) :
    List.Forall₂ (List.Forall₂ R) (groups p xs) (groups q ys) := by
  induction h with
  | nil => exact .cons .nil .nil
  | @cons x y xs ys hx hrest ih =>
      rw [groups, groups, hclass x y hx]
      split
      · exact .cons .nil ih
      · generalize groups p xs = gs at ih ⊢
        generalize groups q ys = hs at ih ⊢
        cases ih with
        | nil => exact .cons (.cons hx .nil) .nil
        | cons hgroup hmore => exact .cons (.cons hx hgroup) hmore

end Classes

section Keys

variable {κ : Type} {sameKey : κ → κ → Bool} {key : α → Option κ} {key' : β → Option κ}
  (hkey : ∀ x y, R x y → key x = key' y)
include hkey

theorem forall₂_runs (h : List.Forall₂ R xs ys) :
    List.Forall₂ (List.Forall₂ R) (runs key sameKey xs) (runs key' sameKey ys) := by
  fun_induction runs key sameKey xs generalizing ys with
  | case1 =>
      cases h
      rw [runs]
      exact .nil
  | case2 x rest hnone ih =>
      cases h with
      | @cons _ y _ more hx hrest =>
          rw [runs, ← hkey x y hx, hnone]
          exact .cons (.cons hx .nil) (ih hrest)
  | case3 x rest k hsome joins =>
      rename_i ih
      cases h with
      | @cons _ y _ more hx hrest =>
          have hclass : ∀ x y, R x y → joins x = (key' y).any fun k' => sameKey k' k :=
            fun x y h => by rw [← hkey x y h]
          rw [runs, ← hkey x y hx, hsome]
          refine .cons (.cons hx (forall₂_takeWhile hclass hrest)) ?_
          exact ih (forall₂_dropWhile hclass hrest)

theorem forall₂_mergeRuns {combine : List α → α} {combine' : List β → β}
    (hcombine : ∀ run run', List.Forall₂ R run run' → R (combine run) (combine' run'))
    (h : List.Forall₂ R xs ys) :
    List.Forall₂ R (mergeRuns key sameKey combine xs) (mergeRuns key' sameKey combine' ys) := by
  refine List.rel_map ?_ (forall₂_runs hkey h)
  intro run run' hrun
  cases hrun with
  | nil => exact hcombine _ _ .nil
  | cons hx hrest =>
      cases hrest with
      | nil => exact hx
      | cons hy hmore => exact hcombine _ _ (.cons hx (.cons hy hmore))

end Keys

theorem forall₂_splice {items? : α → Option (List α)} {items?' : β → Option (List β)}
    (hitems : ∀ x y, R x y → Option.Rel (List.Forall₂ R) (items? x) (items?' y))
    (h : List.Forall₂ R xs ys) : List.Forall₂ R (splice items? xs) (splice items?' ys) := by
  refine List.rel_flatMap h fun x y hx => ?_
  have hxy := hitems x y hx
  generalize items? x = of_x at hxy ⊢
  generalize items?' y = of_y at hxy ⊢
  cases hxy with
  | some hsome => exact hsome
  | none => exact .cons hx .nil

end Sequence

end Rulebook
