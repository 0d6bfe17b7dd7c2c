import Rulebook.Reading

/-! # What a step reads

A step of a reader succeeds with a value and a rest, next to a proof that the
rest is short. The relation here forgets that proof, so steps that are bound to
different lengths can be compared and rewritten.
-/

namespace Rulebook

variable {ε σ α β : Type} {bound limit : Nat}

@[simp] theorem ok_bind (a : α) (f : α → Except ε β) : (Except.ok a >>= f) = f a := rfl

@[simp] theorem pure_eq_ok (a : α) : (pure a : Except ε α) = .ok a := rfl

theorem exists_of_isOk {x : Except ε α} (h : x.isOk) : ∃ a, x = .ok a := by
  cases x with
  | error e => cases h
  | ok a => exact ⟨a, rfl⟩

theorem exists_of_map_eq_ok {x : Except ε α} {f : α → β} {b : β} (h : x.map f = .ok b) :
    ∃ a, x = .ok a ∧ f a = b := by
  cases x with
  | error e => cases h
  | ok a => exact ⟨a, rfl, Except.ok.inj h⟩

/-- Two steps in sequence succeed if both do. -/
theorem bind_eq_ok {x : Except ε α} {f : α → Except ε β} {b : β} :
    (x >>= f) = .ok b ↔ ∃ a, x = .ok a ∧ f a = .ok b := by
  cases x with
  | error found => simp [bind, Except.bind]
  | ok a => simp

/-- Two steps in sequence fail in the first one or after it. -/
theorem bind_eq_error {x : Except ε α} {f : α → Except ε β} {e : ε} :
    (x >>= f) = .error e ↔ x = .error e ∨ ∃ a, x = .ok a ∧ f a = .error e := by
  cases x with
  | error found => simp [bind, Except.bind]
  | ok a => simp

/-- A loop that collects results fails at one of the items. -/
theorem exists_of_mapM_eq_error {f : α → Except ε β} {xs : List α} {e : ε}
    (h : xs.mapM f = .error e) : ∃ x ∈ xs, f x = .error e := by
  induction xs with
  | nil => cases h
  | cons x rest ih =>
      rw [List.mapM_cons] at h
      rcases bind_eq_error.mp h with hx | ⟨b, -, hrest⟩
      · exact ⟨x, List.mem_cons_self, hx⟩
      · rcases bind_eq_error.mp hrest with hrest | ⟨bs, -, hpure⟩
        · obtain ⟨y, hy, hfault⟩ := ih hrest
          exact ⟨y, List.mem_cons_of_mem _ hy, hfault⟩
        · cases hpure

/-- A loop with a state fails at one of the items, in some state. -/
theorem exists_of_foldlM_eq_error {f : β → α → Except ε β} {xs : List α} {b : β} {e : ε}
    (h : xs.foldlM f b = .error e) : ∃ x ∈ xs, ∃ state, f state x = .error e := by
  induction xs generalizing b with
  | nil => cases h
  | cons x rest ih =>
      rw [List.foldlM_cons] at h
      rcases bind_eq_error.mp h with hx | ⟨state, -, hrest⟩
      · exact ⟨x, List.mem_cons_self, b, hx⟩
      · obtain ⟨y, hy, hfault⟩ := ih hrest
        exact ⟨y, List.mem_cons_of_mem _ hy, hfault⟩

/-- What holds of every result holds of all results. -/
theorem forall_of_mapM_eq_ok {f : α → Except ε β} {P : β → Prop} {xs : List α} {bs : List β}
    (h : xs.mapM f = .ok bs) (hP : ∀ x ∈ xs, ∀ b, f x = .ok b → P b) : ∀ b ∈ bs, P b := by
  induction xs generalizing bs with
  | nil =>
      cases h
      simp
  | cons x rest ih =>
      obtain ⟨hx, hrest⟩ := List.forall_mem_cons.mp hP
      rw [List.mapM_cons] at h
      obtain ⟨b, hb, h⟩ := bind_eq_ok.mp h
      obtain ⟨more, hmore, h⟩ := bind_eq_ok.mp h
      cases h
      exact List.forall_mem_cons.mpr ⟨hx b hb, ih hmore hrest⟩

/-- A loop that collects results succeeds if it does so at every item. -/
theorem exists_mapM_eq_ok {f : α → Except ε β} {P : β → Prop} {xs : List α}
    (h : ∀ x ∈ xs, ∃ b, f x = .ok b ∧ P b) :
    ∃ bs, xs.mapM f = .ok bs ∧ bs.length = xs.length ∧ ∀ b ∈ bs, P b := by
  induction xs with
  | nil => exact ⟨[], rfl, rfl, by simp⟩
  | cons x rest ih =>
      obtain ⟨b, hx, hb⟩ := h x List.mem_cons_self
      obtain ⟨bs, hrest, hlength, hbs⟩ := ih fun y hy => h y (List.mem_cons_of_mem _ hy)
      refine ⟨b :: bs, ?_, by rw [List.length_cons, List.length_cons, hlength], ?_⟩
      · rw [List.mapM_cons, hx, ok_bind, hrest, ok_bind, pure_eq_ok]
      · exact List.forall_mem_cons.mpr ⟨hb, hbs⟩

/-- A loop that collects results fails as the first item does that fails. -/
theorem mapM_append_eq_error {f : α → Except ε β} {front back : List α} {x : α} {e : ε}
    (hfront : ∀ y ∈ front, ∃ b, f y = .ok b) (hx : f x = .error e) :
    (front ++ x :: back).mapM f = .error e := by
  induction front with
  | nil =>
      rw [List.nil_append, List.mapM_cons, hx]
      rfl
  | cons y more ih =>
      obtain ⟨⟨b, hy⟩, hmore⟩ := List.forall_mem_cons.mp hfront
      rw [List.cons_append, List.mapM_cons, hy, ok_bind, ih hmore]
      rfl

/-- A loop over groups, each of which is a loop, fails as the first item of all groups does
that fails. -/
theorem mapM_groups_eq_error {γ : Type} {f : α → Except ε β} (g : List β → γ)
    {groups : List (List α)} {front back : List α} {x : α} {e : ε}
    (h : groups.flatten = front ++ x :: back) (hfront : ∀ y ∈ front, ∃ b, f y = .ok b)
    (hx : f x = .error e) :
    groups.mapM (fun group => do return g (← group.mapM f)) = .error e := by
  have hgroup : ∀ group : List α, (∀ y ∈ group, ∃ b, f y = .ok b) →
      ∃ c, (do return g (← group.mapM f)) = .ok c := by
    intro group hall
    obtain ⟨bs, hbs, -⟩ := exists_mapM_eq_ok (P := fun _ => True) fun y hy =>
      (hall y hy).imp fun _ hb => ⟨hb, trivial⟩
    exact ⟨g bs, by rw [hbs]; rfl⟩
  induction groups generalizing front with
  | nil => simp at h
  | cons group rest ih =>
      rw [List.flatten_cons] at h
      rcases List.append_eq_append_iff.mp h with ⟨more, rfl, hrest⟩ | ⟨more, rfl, hrest⟩
      · -- The group is in front of the item that fails.
        obtain ⟨c, hc⟩ := hgroup group fun y hy => hfront y (List.mem_append_left _ hy)
        rw [List.mapM_cons, hc, ok_bind, ih hrest fun y hy => hfront y (List.mem_append_right _ hy)]
        rfl
      · cases more with
        | nil =>
            rw [List.append_nil] at h ⊢
            obtain ⟨c, hc⟩ := hgroup front hfront
            have hrest' : rest.flatten = [] ++ x :: back := hrest.symm
            rw [List.mapM_cons, hc, ok_bind, ih hrest' (by simp)]
            rfl
        | cons y more =>
            obtain ⟨rfl, -⟩ := List.cons.inj hrest
            rw [List.mapM_cons, mapM_append_eq_error hfront hx]
            rfl

/-- A loop with a state succeeds if each item keeps the state as it has to be. -/
theorem exists_foldlM_eq_ok {f : β → α → Except ε β} {P : β → Prop} {xs : List α} {b : β}
    (start : P b) (step : ∀ x ∈ xs, ∀ state, P state → ∃ next, f state x = .ok next ∧ P next) :
    ∃ last, xs.foldlM f b = .ok last ∧ P last := by
  induction xs generalizing b with
  | nil => exact ⟨b, rfl, start⟩
  | cons x rest ih =>
      obtain ⟨next, hx, hnext⟩ := step x List.mem_cons_self b start
      obtain ⟨last, hrest, hlast⟩ := ih hnext fun y hy => step y (List.mem_cons_of_mem _ hy)
      exact ⟨last, by rw [List.foldlM_cons, hx, ok_bind, hrest], hlast⟩

/-- A step succeeds with this value and leaves this rest. -/
def Reads (step : Except ε (Reading σ α bound)) (value : α) (rest : List σ) : Prop :=
  ∃ short, step = .ok ⟨value, rest, short⟩

namespace Reads

theorem short {step : Except ε (Reading σ α bound)} {value : α} {rest : List σ}
    (h : Reads step value rest) : rest.length < bound := h.choose

theorem eq_ok {step : Except ε (Reading σ α bound)} {value : α} {rest : List σ}
    (h : Reads step value rest) : step = .ok ⟨value, rest, h.short⟩ := h.choose_spec

end Reads

@[simp] theorem reads_ok {r : Reading σ α bound} {value : α} {rest : List σ} :
    Reads (.ok r : Except ε (Reading σ α bound)) value rest ↔ r.value = value ∧ r.rest = rest := by
  constructor
  · rintro ⟨short, heq⟩
    rw [Except.ok.inj heq]
    exact ⟨rfl, rfl⟩
  · rintro ⟨rfl, rfl⟩
    exact ⟨r.short, rfl⟩

@[simp] theorem not_reads_error {e : ε} {value : α} {rest : List σ} :
    ¬ Reads (.error e : Except ε (Reading σ α bound)) value rest := by
  rintro ⟨_, heq⟩
  cases heq

/-- Two steps in sequence read what the second one reads after the first. -/
theorem reads_bind {first : Except ε (Reading σ α bound)}
    {second : Reading σ α bound → Except ε (Reading σ β limit)} {value : β} {rest : List σ} :
    Reads (first >>= second) value rest ↔
      ∃ a middle, ∃ h : Reads first a middle, Reads (second ⟨a, middle, h.short⟩) value rest := by
  constructor
  · intro h
    cases hfirst : first with
    | error e =>
        rw [hfirst] at h
        exact absurd h not_reads_error
    | ok r =>
        rw [hfirst] at h
        exact ⟨r.value, r.rest, reads_ok.mpr ⟨rfl, rfl⟩, h⟩
  · rintro ⟨a, middle, hfirst, hsecond⟩
    rw [hfirst.eq_ok]
    exact hsecond

end Rulebook
