import Rulebook.Sequence

/-! # Runs, groups and heads of a sequence

What is taken off the head of a sequence by class, where the runs of a sequence
are known, and that there is always a group.
-/

namespace Rulebook.Sequence

variable {α κ : Type}

/-- No item of the class stands at the head. -/
def StopsBefore (inClass : α → Bool) (rest : List α) : Prop :=
  ∀ x ∈ rest.head?, inClass x = false

@[simp] theorem stopsBefore_nil (inClass : α → Bool) : StopsBefore inClass [] := by
  intro x hx
  cases hx

@[simp] theorem stopsBefore_cons {inClass : α → Bool} {x : α} {rest : List α} :
    StopsBefore inClass (x :: rest) ↔ inClass x = false := by
  simp [StopsBefore]

theorem stopsBefore_append {inClass : α → Bool} {xs : List α} (h : xs ≠ []) (rest : List α) :
    StopsBefore inClass (xs ++ rest) ↔ StopsBefore inClass xs := by
  obtain ⟨x, tail, rfl⟩ := List.exists_cons_of_ne_nil h
  rw [List.cons_append, stopsBefore_cons, stopsBefore_cons]

/-- What is left behind a run begins with no item of the class. -/
theorem stopsBefore_dropWhile (inClass : α → Bool) (xs : List α) :
    StopsBefore inClass (xs.dropWhile inClass) := by
  intro x hx
  have hnot := List.head?_dropWhile_not inClass xs
  rw [Option.mem_def.mp hx] at hnot
  exact hnot

/-- A run is taken as a whole and nothing beyond it. -/
theorem takeWhile_append {inClass : α → Bool} {xs rest : List α} (h : ∀ x ∈ xs, inClass x)
    (hstop : StopsBefore inClass rest) : (xs ++ rest).takeWhile inClass = xs := by
  rw [List.takeWhile_append_of_pos h]
  cases rest with
  | nil => simp
  | cons x rest => simp [stopsBefore_cons.mp hstop]

theorem dropWhile_append {inClass : α → Bool} {xs rest : List α} (h : ∀ x ∈ xs, inClass x)
    (hstop : StopsBefore inClass rest) : (xs ++ rest).dropWhile inClass = rest := by
  rw [List.dropWhile_append_of_pos h]
  cases rest with
  | nil => rfl
  | cons x rest => simp [stopsBefore_cons.mp hstop]

/-- Where a run ends is told by what follows it. -/
theorem append_injective {inClass : α → Bool} {xs ys rest more : List α}
    (hxs : ∀ x ∈ xs, inClass x) (hys : ∀ y ∈ ys, inClass y) (hrest : StopsBefore inClass rest)
    (hmore : StopsBefore inClass more) (h : xs ++ rest = ys ++ more) : xs = ys ∧ rest = more := by
  have htake := congrArg (List.takeWhile inClass) h
  have hdrop := congrArg (List.dropWhile inClass) h
  rw [takeWhile_append hxs hrest, takeWhile_append hys hmore] at htake
  rw [dropWhile_append hxs hrest, dropWhile_append hys hmore] at hdrop
  exact ⟨htake, hdrop⟩

theorem takeWhile_of_forall {inClass : α → Bool} {xs : List α} (h : ∀ x ∈ xs, inClass x) :
    xs.takeWhile inClass = xs := by
  have hall := takeWhile_append h (stopsBefore_nil inClass)
  rwa [List.append_nil] at hall

theorem dropWhile_of_forall {inClass : α → Bool} {xs : List α} (h : ∀ x ∈ xs, inClass x) :
    xs.dropWhile inClass = [] := by
  have hall := dropWhile_append h (stopsBefore_nil inClass)
  rwa [List.append_nil] at hall

theorem dropWhile_of_stopsBefore {inClass : α → Bool} {xs : List α}
    (h : StopsBefore inClass xs) : xs.dropWhile inClass = xs := by
  cases xs with
  | nil => rfl
  | cons x rest => simp [stopsBefore_cons.mp h]

theorem groups_ne_nil (isBoundary : α → Bool) (xs : List α) : groups isBoundary xs ≠ [] := by
  cases xs with
  | nil => simp [groups]
  | cons x rest =>
      rw [groups]
      split
      · exact List.cons_ne_nil _ _
      · split <;> exact List.cons_ne_nil _ _

/-- The groups hold the items between boundaries, in order. -/
theorem flatten_groups (isBoundary : α → Bool) (xs : List α) :
    (groups isBoundary xs).flatten = xs.filter fun x => !isBoundary x := by
  induction xs with
  | nil => rfl
  | cons x rest ih =>
      rw [groups, List.filter_cons, ← ih]
      split
      · next hx => simp [hx]
      · next hx =>
          split
          · next hgroups => exact absurd hgroups (groups_ne_nil _ _)
          · next first more hgroups => simp [hx, hgroups]

theorem mem_of_mem_groups {isBoundary : α → Bool} {xs group : List α} {x : α}
    (hgroup : group ∈ groups isBoundary xs) (hx : x ∈ group) : x ∈ xs := by
  have hflatten := List.mem_flatten_of_mem hgroup hx
  rw [flatten_groups] at hflatten
  exact (List.mem_filter.mp hflatten).1

theorem not_isBoundary_of_mem_groups {isBoundary : α → Bool} {xs group : List α} {x : α}
    (hgroup : group ∈ groups isBoundary xs) (hx : x ∈ group) : isBoundary x = false := by
  have hflatten := List.mem_flatten_of_mem hgroup hx
  rw [flatten_groups] at hflatten
  simpa using (List.mem_filter.mp hflatten).2

/-- What is found first in lists in a row is found first in one of them. -/
theorem findSome?_flatMap {β γ : Type _} (f : β → Option γ) (lists : α → List β) (xs : List α) :
    (xs.flatMap lists).findSome? f = xs.findSome? fun x => (lists x).findSome? f := by
  induction xs with
  | nil => rfl
  | cons x rest ih =>
      rw [List.flatMap_cons, List.findSome?_append, ih, List.findSome?_cons]
      cases (lists x).findSome? f <;> rfl

/-- What stands under a key in a list that begins with an entry. -/
theorem lookup_cons_eq_ite {β : Type _} (key k : String) (x : β) (rest : List (String × β)) :
    List.lookup key ((k, x) :: rest) = if key = k then some x else List.lookup key rest := by
  rw [List.lookup_cons]
  by_cases h : key = k
  · rw [if_pos h, beq_iff_eq.mpr h]
  · rw [if_neg h, beq_eq_false_iff_ne.mpr h]

/-- With distinct keys every entry is found. -/
theorem lookup_of_mem {β : Type _} {entries : List (String × β)} (h : (entries.map Prod.fst).Nodup)
    {entry : String × β} (hentry : entry ∈ entries) : entries.lookup entry.1 = some entry.2 := by
  induction entries with
  | nil => cases hentry
  | cons first rest ih =>
      rw [List.map_cons, List.nodup_cons] at h
      rw [lookup_cons_eq_ite]
      rcases List.mem_cons.mp hentry with rfl | hrest
      · rw [if_pos rfl]
      · have hne : entry.1 ≠ first.1 := fun heq => h.1 (heq ▸ List.mem_map_of_mem hrest)
        rw [if_neg hne, ih h.2 hrest]

theorem lookup_isSome_iff {β : Type _} {entries : List (String × β)} {key : String} :
    (entries.lookup key).isSome ↔ key ∈ entries.map Prod.fst := by
  simp [← Option.ne_none_iff_isSome, List.lookup_eq_none_iff]

/-- An item without a key is a run of its own. -/
theorem runs_cons_of_none {key : α → Option κ} {sameKey : κ → κ → Bool} {x : α}
    (h : key x = none) (rest : List α) :
    runs key sameKey (x :: rest) = [x] :: runs key sameKey rest := by
  rw [runs, h]

/-- Items that all have a key, where all keys are the same, are one run, up to the next item
without a key. -/
theorem runs_append_of_isSome {key : α → Option κ} {sameKey : κ → κ → Bool}
    (hsame : ∀ k k', sameKey k k' = true) {xs rest : List α} (hne : xs ≠ [])
    (h : ∀ y ∈ xs, (key y).isSome) (hrest : ∀ y ∈ rest.head?, key y = none) :
    runs key sameKey (xs ++ rest) = xs :: runs key sameKey rest := by
  obtain ⟨x, more, rfl⟩ := List.exists_cons_of_ne_nil hne
  obtain ⟨k, hk⟩ := Option.isSome_iff_exists.mp (h x List.mem_cons_self)
  have hjoins : ∀ y ∈ more, ((key y).any fun k' => sameKey k' k) = true := by
    intro y hy
    obtain ⟨k', hk'⟩ := Option.isSome_iff_exists.mp (h y (List.mem_cons_of_mem _ hy))
    rw [hk', Option.any_some, hsame]
  have hstop : StopsBefore (fun y => (key y).any fun k' => sameKey k' k) rest := by
    intro y hy
    simp only [hrest y hy, Option.any_none]
  rw [List.cons_append, runs, hk]
  simp only
  rw [takeWhile_append hjoins hstop, dropWhile_append hjoins hstop]

/-- A run is not empty, consists of items of the sequence, and has several items
only if they all have a key. -/
theorem of_mem_runs {key : α → Option κ} {sameKey : κ → κ → Bool} {xs run : List α}
    (h : run ∈ runs key sameKey xs) :
    run ≠ [] ∧ (∀ x ∈ run, x ∈ xs) ∧ (2 ≤ run.length → ∀ x ∈ run, (key x).isSome) := by
  fun_induction runs key sameKey xs with
  | case1 => cases h
  | case2 x rest hkey ih =>
      rcases List.mem_cons.mp h with rfl | hrest
      · simp
      · obtain ⟨hne, hmem, hkeys⟩ := ih hrest
        exact ⟨hne, fun y hy => List.mem_cons_of_mem _ (hmem y hy), hkeys⟩
  | case3 x rest k hkey joins ih =>
      rcases List.mem_cons.mp h with rfl | hrest
      · refine ⟨List.cons_ne_nil _ _, ?_, ?_⟩
        · intro y hy
          rcases List.mem_cons.mp hy with rfl | hy
          · exact List.mem_cons_self
          · exact List.mem_cons_of_mem _ ((List.takeWhile_prefix joins).subset hy)
        · intro _ y hy
          rcases List.mem_cons.mp hy with rfl | hy
          · rw [hkey, Option.isSome_some]
          · exact Option.isSome_of_any (List.all_eq_true.mp List.all_takeWhile y hy)
      · obtain ⟨hne, hmem, hkeys⟩ := ih hrest
        refine ⟨hne, fun y hy => ?_, hkeys⟩
        exact List.mem_cons_of_mem _ ((List.dropWhile_suffix joins).subset (hmem y hy))

end Rulebook.Sequence
