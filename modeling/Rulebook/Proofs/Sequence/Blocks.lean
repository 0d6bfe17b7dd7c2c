import Mathlib.Data.List.SplitBy
import Mathlib.Data.List.TakeWhile
import Rulebook.Json.Basic
import Rulebook.Proofs.Sequence

/-! # Blocks of items with one key

Items next to each other with the same key make up a block that is as long as it can be, and
an item without a key is a block of its own. There is one way to divide a sequence like that.
A merge combines each block of two items or more, and does so from left to right when it takes
the items one by one.
-/

namespace Rulebook.Sequence

variable {α κ : Type} {key : α → Option κ} {sameKey : κ → κ → Bool}

/-! ## Blocks -/

/-- Keys are compared by an equality, but a key need not be the same as itself. -/
structure IsEquality (sameKey : κ → κ → Bool) : Prop where
  symm : ∀ {a b}, sameKey a b → sameKey b a
  trans : ∀ {a b c}, sameKey a b → sameKey b c → sameKey a c

/-- Whether two items have keys that are the same. -/
def alike (key : α → Option κ) (sameKey : κ → κ → Bool) (x y : α) : Bool :=
  (key x).any fun k => (key y).any fun k' => sameKey k k'

/-- A sequence is divided into blocks: the items of a block are alike, and no item of a block
is like one of the next block. -/
structure IsBlocks (key : α → Option κ) (sameKey : κ → κ → Bool) (blocks : List (List α))
    (xs : List α) : Prop where
  flatten_eq : blocks.flatten = xs
  ne_nil : ∀ block ∈ blocks, block ≠ []
  alike : ∀ block ∈ blocks, block.Pairwise fun x y => alike key sameKey x y
  maximal : blocks.IsChain fun a b => ∀ x ∈ a, ∀ y ∈ b, ¬ Sequence.alike key sameKey x y

theorem alike_iff {x y : α} : alike key sameKey x y ↔
    ∃ k k', key x = some k ∧ key y = some k' ∧ sameKey k k' := by
  simp [alike, Option.any_eq_true]

theorem not_alike_of_none {x y : α} (h : key x = none ∨ key y = none) :
    ¬ alike key sameKey x y := by
  rw [alike_iff]
  rintro ⟨k, k', hx, hy, -⟩
  rcases h with h | h
  · cases h.symm.trans hx
  · cases h.symm.trans hy

theorem IsEquality.alike_symm (h : IsEquality sameKey) {x y : α} (hxy : alike key sameKey x y) :
    alike key sameKey y x := by
  obtain ⟨k, k', hx, hy, hsame⟩ := alike_iff.mp hxy
  exact alike_iff.mpr ⟨k', k, hy, hx, h.symm hsame⟩

theorem IsEquality.alike_trans (h : IsEquality sameKey) {x y z : α}
    (hxy : alike key sameKey x y) (hyz : alike key sameKey y z) : alike key sameKey x z := by
  obtain ⟨k, k', hx, hy, hsame⟩ := alike_iff.mp hxy
  obtain ⟨l, l', hy', hz, hsame'⟩ := alike_iff.mp hyz
  obtain rfl : k' = l := Option.some.inj (hy.symm.trans hy')
  exact alike_iff.mpr ⟨k, l', hx, hz, h.trans hsame hsame'⟩

namespace IsBlocks

variable {blocks : List (List α)} {block xs : List α}

theorem nil : IsBlocks key sameKey [] ([] : List α) := ⟨rfl, by simp, by simp, by simp⟩

/-- The first item of the first block is the first item. -/
theorem exists_cons_of_head? (h : IsBlocks key sameKey blocks xs) (hblock : block ∈ blocks.head?) :
    ∃ x more, block = x :: more ∧ x ∈ xs.head? := by
  obtain ⟨others, rfl⟩ := List.head?_eq_some_iff.mp hblock
  obtain ⟨x, more, rfl⟩ := List.exists_cons_of_ne_nil (h.ne_nil block List.mem_cons_self)
  exact ⟨x, more, rfl, by rw [← h.flatten_eq]; rfl⟩

/-- A block is put in front: its items are like its first one, and the next item is not. -/
theorem cons (hequality : IsEquality sameKey) (h : IsBlocks key sameKey blocks xs) {x : α}
    {more : List α} (hmore : ∀ y ∈ more, Sequence.alike key sameKey x y)
    (hnext : ∀ y ∈ xs.head?, ¬ Sequence.alike key sameKey x y) :
    IsBlocks key sameKey ((x :: more) :: blocks) (x :: more ++ xs) where
  flatten_eq := by rw [List.flatten_cons, h.flatten_eq]
  ne_nil := List.forall_mem_cons.mpr ⟨List.cons_ne_nil _ _, h.ne_nil⟩
  alike := by
    refine List.forall_mem_cons.mpr ⟨List.pairwise_cons.mpr ⟨hmore, ?_⟩, h.alike⟩
    refine List.pairwise_of_forall_mem_list fun y hy z hz => ?_
    exact hequality.alike_trans (hequality.alike_symm (hmore y hy)) (hmore z hz)
  maximal := by
    refine List.isChain_cons.mpr ⟨fun next hblock y hy z hz hyz => ?_, h.maximal⟩
    obtain ⟨first, others, rfl, hfirst⟩ := h.exists_cons_of_head? hblock
    -- Likeness would carry over to the first items of the two blocks.
    have hyfirst : Sequence.alike key sameKey y first := by
      rcases List.mem_cons.mp hz with rfl | hothers
      · exact hyz
      · have hpairs := h.alike _ (List.mem_of_mem_head? hblock)
        have hpair := (List.pairwise_cons.mp hpairs).1 z hothers
        exact hequality.alike_trans hyz (hequality.alike_symm hpair)
    rcases List.mem_cons.mp hy with rfl | hy
    · exact hnext first hfirst hyfirst
    · exact hnext first hfirst (hequality.alike_trans (hmore y hy) hyfirst)

/-- There is one way to divide a sequence into blocks. -/
theorem eq_splitBy (h : IsBlocks key sameKey blocks xs) :
    xs.splitBy (Sequence.alike key sameKey) = blocks := by
  refine List.splitBy_eq_iff.mpr ⟨h.flatten_eq.symm, fun hnil => h.ne_nil [] hnil rfl,
    fun block hblock => (h.alike block hblock).isChain, ?_⟩
  refine h.maximal.imp_of_mem_imp fun a b ha hb hapart => ?_
  have hne := h.ne_nil a ha
  have hne' := h.ne_nil b hb
  exact ⟨hne, hne', Bool.eq_false_iff.mpr
    (hapart _ (List.getLast_mem hne) _ (List.head_mem hne'))⟩

/-- An item without a key is a block of its own. -/
theorem eq_singleton_of_none (h : IsBlocks key sameKey blocks xs) (hblock : block ∈ blocks)
    {x : α} (hx : x ∈ block) (hkey : key x = none) : block = [x] := by
  obtain ⟨front, back, rfl⟩ := List.append_of_mem hx
  have hpairs := h.alike _ hblock
  rw [List.pairwise_append, List.pairwise_cons] at hpairs
  obtain ⟨-, ⟨hback, -⟩, hfront⟩ := hpairs
  have hfront_nil : front = [] := List.eq_nil_iff_forall_not_mem.mpr fun y hy =>
    not_alike_of_none (.inr hkey) (hfront y hy x List.mem_cons_self)
  have hback_nil : back = [] := List.eq_nil_iff_forall_not_mem.mpr fun y hy =>
    not_alike_of_none (.inl hkey) (hback y hy)
  rw [hfront_nil, hback_nil]
  rfl

end IsBlocks

/-! ## Runs -/

theorem flatten_runs (key : α → Option κ) (sameKey : κ → κ → Bool) (xs : List α) :
    (runs key sameKey xs).flatten = xs := by
  fun_induction runs key sameKey xs with
  | case1 => rfl
  | case2 x rest _ ih => rw [List.flatten_cons, ih]; rfl
  | case3 x rest k _ joins ih =>
      rw [List.flatten_cons, ih, List.cons_append, List.takeWhile_append_dropWhile]

/-- The runs of a sequence are its blocks. -/
theorem isBlocks_runs (h : IsEquality sameKey) (key : α → Option κ) (xs : List α) :
    IsBlocks key sameKey (runs key sameKey xs) xs := by
  fun_induction runs key sameKey xs with
  | case1 => exact .nil
  | case2 x rest hkey ih =>
      have hnext : ∀ y ∈ rest.head?, ¬ alike key sameKey x y := fun _ _ =>
        not_alike_of_none (.inl hkey)
      exact .cons h ih (by simp) hnext
  | case3 x rest k hkey joins ih =>
      have hjoins : ∀ y, joins y ↔ alike key sameKey x y := by
        intro y
        have hback : joins y ↔ alike key sameKey y x := by simp [joins, alike, hkey]
        exact hback.trans ⟨h.alike_symm, h.alike_symm⟩
      have hmore : ∀ y ∈ rest.takeWhile joins, alike key sameKey x y := fun y hy =>
        (hjoins y).mp (List.mem_takeWhile_imp hy)
      have hnext : ∀ y ∈ (rest.dropWhile joins).head?, ¬ alike key sameKey x y := by
        intro y hy
        rw [← hjoins, stopsBefore_dropWhile joins rest y hy]
        exact Bool.false_ne_true
      have hblocks := ih.cons h hmore hnext
      rwa [List.cons_append, List.takeWhile_append_dropWhile] at hblocks

/-! ## Taking items one by one -/

/-- What is made of a block: two items or more are combined, and one is kept. -/
def merged {β : Type*} (keep : α → β) (combine : List α → β) : List α → β
  | [x] => keep x
  | block => combine block

theorem mergeRuns_eq_map (combine : List α → α) (xs : List α) :
    mergeRuns key sameKey combine xs = (runs key sameKey xs).map (merged id combine) := by
  refine List.map_congr_left fun block _ => ?_
  rcases block with _ | ⟨x, _ | ⟨y, more⟩⟩ <;> rfl

/-- A merge on its way: what has been made, the run that is still open, and the key of the item
that the last run was opened with. -/
structure Merging (α κ : Type) where
  made : List α
  run : List α
  key? : Option κ

namespace Merging

variable {m : Type → Type*} [Monad m]

/-- Whether an item goes on with the run. -/
def joins (key : α → Option κ) (sameKey : κ → κ → Bool) (s : Merging α κ) (x : α) : Bool :=
  (key x).any fun k => !s.run.isEmpty && s.key?.any fun k' => sameKey k k'

/-- Closes the run. -/
def close (combine : List α → m α) (s : Merging α κ) : m (Merging α κ) := do
  if 2 ≤ s.run.length then return { s with made := s.made ++ [← combine s.run], run := [] }
  return { s with made := s.made ++ s.run, run := [] }

/-- Takes one more item: it goes on with the run, or it opens another one, which is closed at
once if the item has no key. -/
def step (key : α → Option κ) (sameKey : κ → κ → Bool) (combine : List α → m α)
    (s : Merging α κ) (x : α) : m (Merging α κ) := do
  if s.joins key sameKey x then return { s with run := s.run ++ [x] }
  let closed ← s.close combine
  let opened := { closed with run := closed.run ++ [x], key? := key x }
  if (key x).isNone then opened.close combine else return opened

/-- Takes the items one by one, and closes the last run. -/
def finish (key : α → Option κ) (sameKey : κ → κ → Bool) (combine : List α → m α)
    (s : Merging α κ) (xs : List α) : m (List α) := do
  let last ← xs.foldlM (step key sameKey combine) s
  return (← last.close combine).made

/-- The blocks that are still to come: the run that is open goes on as long as items join it. -/
def blocks (key : α → Option κ) (sameKey : κ → κ → Bool) (s : Merging α κ) (xs : List α) :
    List (List α) :=
  if s.run.isEmpty then runs key sameKey xs
  else (s.run ++ xs.takeWhile (s.joins key sameKey)) ::
    runs key sameKey (xs.dropWhile (s.joins key sameKey))

variable {combine : List α → m α} {s : Merging α κ} {x : α} {xs rest : List α}

/-! ### What a step does -/

theorem joins_of_nil (h : s.run = []) : s.joins key sameKey x = false := by
  simp [joins, h]

/-- It is the key of a run that tells which items join it. -/
theorem joins_eq_of_ne_nil (h : s.run ≠ []) {run : List α} (hrun : run ≠ []) :
    joins key sameKey { s with run } = joins key sameKey s := by
  funext y
  simp [joins, List.isEmpty_eq_false_iff.mpr h, List.isEmpty_eq_false_iff.mpr hrun]

theorem step_of_joins (h : s.joins key sameKey x) :
    s.step key sameKey combine x = pure { s with run := s.run ++ [x] } := by
  simp [step, h]

theorem close_of_nil (h : s.run = []) : s.close combine = pure s := by
  obtain ⟨made, run, key?⟩ := s
  obtain rfl : run = [] := h
  simp [close]

variable [LawfulMonad m]

theorem close_of_ne_nil (h : s.run ≠ []) : s.close combine =
    (fun y => { s with made := s.made ++ [y], run := [] }) <$> merged pure combine s.run := by
  obtain ⟨made, run, key?⟩ := s
  rcases run with _ | ⟨x, _ | ⟨y, more⟩⟩
  · exact absurd rfl h
  · simp [close, merged]
  · simp [close, merged]

theorem step_of_none (hrun : s.run = []) (hkey : key x = none) :
    s.step key sameKey combine x = pure ⟨s.made ++ [x], [], none⟩ := by
  simp [step, joins_of_nil hrun, hkey, hrun, close]

theorem step_of_some {k : κ} (hrun : s.run = []) (hkey : key x = some k) :
    s.step key sameKey combine x = pure ⟨s.made, [x], some k⟩ := by
  simp [step, joins_of_nil hrun, close_of_nil hrun, hkey, hrun]

/-- An item that does not join the run comes after the run is closed. -/
theorem step_of_not_joins (hrun : s.run ≠ []) (h : s.joins key sameKey x = false) :
    s.step key sameKey combine x = merged pure combine s.run >>= fun y =>
      step key sameKey combine ⟨s.made ++ [y], [], s.key?⟩ x := by
  rw [step, h, close_of_ne_nil hrun]
  simp [step, joins_of_nil, close_of_nil]

/-! ### What a whole merge does -/

theorem finish_cons (s : Merging α κ) (x : α) (rest : List α) :
    s.finish key sameKey combine (x :: rest) =
      s.step key sameKey combine x >>= fun next => next.finish key sameKey combine rest := by
  simp [finish]

/-- What a merge makes in the end: what has been made, and what becomes of the blocks that are
still to come. -/
def Finishes (key : α → Option κ) (sameKey : κ → κ → Bool) (combine : List α → m α)
    (xs : List α) (s : Merging α κ) : Prop :=
  s.finish key sameKey combine xs =
    (s.made ++ ·) <$> (s.blocks key sameKey xs).mapM (merged pure combine)

theorem finishes_nil (s : Merging α κ) : Finishes key sameKey combine [] s := by
  by_cases hrun : s.run = []
  · simp [Finishes, finish, blocks, close_of_nil, hrun, runs]
  · simp [Finishes, finish, blocks, close_of_ne_nil, hrun, runs]

theorem finishes_cons_of_nil (ih : ∀ s, Finishes key sameKey combine rest s) (hrun : s.run = []) :
    Finishes key sameKey combine (x :: rest) s := by
  rw [Finishes, finish_cons]
  cases hkey : key x with
  | none =>
      rw [step_of_none hrun hkey, pure_bind, ih]
      simp [blocks, hrun, runs_cons_of_none hkey, merged]
  | some k =>
      have hjoins : joins key sameKey ⟨s.made, [x], some k⟩ =
          fun y => (key y).any fun k' => sameKey k' k := by
        funext y
        simp [joins]
      rw [step_of_some hrun hkey, pure_bind, ih]
      simp [blocks, hrun, runs, hkey, hjoins]

theorem finishes_cons_of_joins (ih : ∀ s, Finishes key sameKey combine rest s)
    (hrun : s.run ≠ []) (h : s.joins key sameKey x) :
    Finishes key sameKey combine (x :: rest) s := by
  rw [Finishes, finish_cons, step_of_joins h, pure_bind, ih]
  simp [blocks, hrun, h, joins_eq_of_ne_nil hrun]

/-- The run is a block, and the item comes to a merge without a run. -/
theorem finishes_cons_of_not_joins (ih : ∀ s, Finishes key sameKey combine rest s)
    (hrun : s.run ≠ []) (h : s.joins key sameKey x = false) :
    Finishes key sameKey combine (x :: rest) s := by
  have hclosed : ∀ y, finish key sameKey combine ⟨s.made ++ [y], [], s.key?⟩ (x :: rest) =
      ((s.made ++ [y]) ++ ·) <$> (runs key sameKey (x :: rest)).mapM (merged pure combine) :=
    fun _ => finishes_cons_of_nil ih rfl
  rw [Finishes, finish_cons, step_of_not_joins hrun h, bind_assoc]
  simp only [← finish_cons, hclosed]
  simp [blocks, hrun, h]

theorem finishes (s : Merging α κ) (xs : List α) : Finishes key sameKey combine xs s := by
  induction xs generalizing s with
  | nil => exact finishes_nil s
  | cons x rest ih =>
      by_cases hrun : s.run = []
      · exact finishes_cons_of_nil ih hrun
      · cases h : s.joins key sameKey x with
        | true => exact finishes_cons_of_joins ih hrun h
        | false => exact finishes_cons_of_not_joins ih hrun h

end Merging

/-- Merges a sequence item by item. -/
def mergeItems {m : Type → Type*} [Monad m] (key : α → Option κ) (sameKey : κ → κ → Bool)
    (combine : List α → m α) (xs : List α) : m (List α) :=
  Merging.finish key sameKey combine ⟨[], [], none⟩ xs

/-- However combining is done, it is done for one run after another. -/
theorem mergeItems_eq {m : Type → Type*} [Monad m] [LawfulMonad m] (key : α → Option κ)
    (sameKey : κ → κ → Bool) (combine : List α → m α) (xs : List α) :
    mergeItems key sameKey combine xs = (runs key sameKey xs).mapM (merged pure combine) := by
  rw [mergeItems, Merging.finishes]
  simp [Merging.blocks]

/-! ## Merging and splicing -/

/-- Runs that are merged to lists are spliced in again. -/
theorem splice_mergeRuns {items? : α → Option (List α)} {ofItems : List α → α}
    (hitems : ∀ run, items? (ofItems run) = some run) {xs : List α}
    (hxs : ∀ x ∈ xs, items? x = none) : splice items? (mergeRuns key sameKey ofItems xs) = xs := by
  have hblock : ∀ block ∈ runs key sameKey xs,
      (items? (merged id ofItems block)).getD [merged id ofItems block] = block := by
    intro block hblock
    rcases block with _ | ⟨x, _ | ⟨y, more⟩⟩
    · simp [merged, hitems]
    · have hx : x ∈ xs := (of_mem_runs hblock).2.1 x List.mem_cons_self
      simp [merged, hxs x hx]
    · simp [merged, hitems]
  rw [splice, mergeRuns_eq_map, List.flatMap_map, List.flatMap_congr hblock, List.flatMap_id']
  exact flatten_runs key sameKey xs

/-- A sequence is divided in one way into blocks, where an item without a key is a block of its
own. A merge combines the blocks of two items or more, and keeps the others as they are. Item by
item it combines them one after another, each of them once. Blocks that are merged to lists are
spliced in again, if no item is a list itself. -/
theorem mergeRuns_by_blocks (h : IsEquality sameKey) (key : α → Option κ) (xs : List α) :
    ∃ blocks, IsBlocks key sameKey blocks xs ∧
      (∀ others, IsBlocks key sameKey others xs → others = blocks) ∧
      (∀ block ∈ blocks, ∀ x ∈ block, key x = none → block = [x]) ∧
      (∀ combine, mergeRuns key sameKey combine xs = blocks.map (merged id combine)) ∧
      (∀ {m : Type → Type*} [Monad m] [LawfulMonad m] (combine : List α → m α),
        mergeItems key sameKey combine xs = blocks.mapM (merged pure combine)) ∧
      ∀ items? ofItems, (∀ run, items? (ofItems run) = some run) → (∀ x ∈ xs, items? x = none) →
        splice items? (mergeRuns key sameKey ofItems xs) = xs := by
  have hblocks := isBlocks_runs h key xs
  refine ⟨runs key sameKey xs, hblocks, ?_, ?_, ?_, ?_, ?_⟩
  · intro others hothers
    exact hothers.eq_splitBy.symm.trans hblocks.eq_splitBy
  · exact fun block hblock x hx hkey => hblocks.eq_singleton_of_none hblock hx hkey
  · exact fun combine => mergeRuns_eq_map combine xs
  · exact fun combine => mergeItems_eq key sameKey combine xs
  · exact fun items? ofItems hitems hxs => splice_mergeRuns hitems hxs

/-- A key for strings alone. -/
def textKey : Json → Option String
  | .string s => some s
  | _ => none

/-- An equality by which `nan` is not the same as itself. -/
def sameText (s t : String) : Bool := s = t && s ≠ "nan"

theorem isEquality_sameText : IsEquality sameText := by
  constructor
  · intro s t h
    obtain ⟨rfl, -⟩ : s = t ∧ s ≠ "nan" := by simpa [sameText] using h
    exact h
  · intro s t u h h'
    obtain ⟨rfl, -⟩ : s = t ∧ s ≠ "nan" := by simpa [sameText] using h
    exact h'

/-- The elements of an array. -/
def elementsOf? : Json → Option (List Json)
  | .array elements => some elements
  | _ => none

/-- Makes an array, and records what it is made of. -/
def recordArray (run : List Json) : StateM (List (List Json)) Json := do
  modify fun runs => runs ++ [run]
  return .array run

/-- Blocks of strings, with `null` among them. -/
def textBlocks : List (List Json) :=
  [[.string "a", .string "a"], [.string "nan"], [.string "nan"], [.null],
    [.string "b", .string "b", .string "b"]]

/-- What is made of these blocks. -/
def textMerges : List Json :=
  [.array [.string "a", .string "a"], .string "nan", .string "nan", .null,
    .array [.string "b", .string "b", .string "b"]]

theorem mergeRuns_by_blocks_text :
    IsEquality sameText ∧ IsBlocks textKey sameText textBlocks textBlocks.flatten ∧
      mergeRuns textKey sameText .array textBlocks.flatten = textMerges ∧
      (mergeItems textKey sameText recordArray textBlocks.flatten).run [] =
        (textMerges, textBlocks.filter fun block => 2 ≤ block.length) ∧
      splice elementsOf? textMerges = textBlocks.flatten := by
  obtain ⟨blocks, hblocks, honly, -, hmerge, hitems, hsplice⟩ :=
    mergeRuns_by_blocks isEquality_sameText textKey textBlocks.flatten
  have htext : IsBlocks textKey sameText textBlocks textBlocks.flatten :=
    ⟨rfl, by decide, by decide, by decide⟩
  obtain rfl := honly textBlocks htext
  have hmerges : mergeRuns textKey sameText .array textBlocks.flatten = textMerges := hmerge .array
  refine ⟨isEquality_sameText, htext, hmerges, ?_, ?_⟩
  · rw [hitems]
    rfl
  · rw [← hmerges]
    exact hsplice elementsOf? .array (fun _ => rfl) (by simp [textBlocks, elementsOf?])

end Rulebook.Sequence
