import Mathlib.Data.List.Infix
import Mathlib.Data.List.Sort
import Rulebook.Proofs.Text.Ranges
import Rulebook.Text.CaseFold

/-! # Characters that differ in case

Two code points count as variants of each other exactly if they have the same folding or are a
pair that differs in the dot. What is read off the table is that its runs ascend, and that no
character that others fold to folds to another one.
-/

namespace Rulebook.Text

/-! ## The table -/

-- What the table says is read off element by element.
set_option maxRecDepth 16000

theorem isAscending_foldRuns :
    IsAscending (foldRuns.map fun run => (run.first, run.last)).toArray := by
  decide

theorem pairwise_foldRuns : foldRuns.Pairwise fun run run' =>
    run.first ≤ run.last ∧ run.last < run'.first ∧ run'.first ≤ run'.last :=
  List.pairwise_map.mp (List.isChain_iff_pairwise.mp isAscending_foldRuns)

/-- Two runs have no code point in common. -/
theorem foldRuns_disjoint {run run' : FoldRun} (hrun : run ∈ foldRuns) (hrun' : run' ∈ foldRuns)
    (hne : run ≠ run') : run.last < run'.first ∨ run'.last < run.first := by
  obtain ⟨i, hi, rfl⟩ := List.mem_iff_getElem.mp hrun
  obtain ⟨j, hj, rfl⟩ := List.mem_iff_getElem.mp hrun'
  obtain hij | rfl | hji := Nat.lt_trichotomy i j
  · exact .inl (List.pairwise_iff_getElem.mp pairwise_foldRuns i j hi hj hij).2.1
  · exact absurd rfl hne
  · exact .inr (List.pairwise_iff_getElem.mp pairwise_foldRuns j i hj hi hji).2.1

/-- The code points that a run folds to are not among those of another: they lie before them or
behind them, or both are every second one and of different parity. -/
def FoldRun.IsApart (run run' : FoldRun) : Prop :=
  run.image + (run.last - run.first) < run'.first ∨ run'.last < run.image ∨
    run'.step = 2 ∧ (run.step = 2 ∨ run.first = run.last) ∧ (run.image + run'.first) % 2 = 1

/-- The code points that a run folds to lie behind the first of some ascending runs, or between its
own, and before the next. -/
def FoldRun.isBetween (run : FoldRun) : List FoldRun → Bool
  | [] => false
  | run' :: more =>
      (more.head?.all fun next => Nat.blt (run.image + (run.last - run.first)) next.first) &&
        (Nat.blt run'.last run.image ||
          Nat.ble run'.first run.image && Nat.beq run'.step 2 &&
            (Nat.beq run.step 2 || Nat.beq run.first run.last) &&
            Nat.beq ((run.image + run'.first) % 2) 1)

theorem isApart_of_isBetween {run run' other : FoldRun} {front more : List FoldRun}
    (hruns : foldRuns = front ++ run' :: more) (hother : other ∈ foldRuns)
    (h : run.isBetween (run' :: more) = true) : run.IsApart other := by
  have hpairwise := pairwise_foldRuns
  rw [hruns] at hother hpairwise
  obtain ⟨-, hmore, hfront⟩ := List.pairwise_append.mp hpairwise
  obtain ⟨hnext, hmore⟩ := List.pairwise_cons.mp hmore
  simp only [FoldRun.isBetween, Bool.and_eq_true, Bool.or_eq_true, Option.all_eq_true,
    Nat.blt_eq, Nat.ble_eq, Nat.beq_eq] at h
  obtain ⟨hbefore, hhead⟩ := h
  obtain hother | rfl | hother := List.mem_append.mp hother |>.imp_right List.mem_cons.mp
  · have := hfront other hother run' List.mem_cons_self
    exact .inr (.inl (by omega))
  · obtain hbehind | ⟨⟨⟨-, hstep⟩, hsame⟩, hparity⟩ := hhead
    · exact .inr (.inl hbehind)
    · exact .inr (.inr ⟨hstep, hsame, hparity⟩)
  · cases more with
    | nil => cases hother
    | cons next rest =>
      have hfirst := hbefore next rfl
      obtain rfl | hother := List.mem_cons.mp hother
      · exact .inl hfirst
      · have := (List.pairwise_cons.mp hmore).1 other hother
        exact .inl (by omega)

theorem foldRuns_isApart {run other : FoldRun} (hrun : run ∈ foldRuns) (hother : other ∈ foldRuns) :
    run.IsApart other := by
  -- In the order of their images, the runs are met by one walk along the table.
  have hwalk : foldRuns.tails.foldl (fun left runs => left.dropWhile (·.isBetween runs))
      (foldRuns.insertionSort fun run run' => run.image ≤ run'.image) = [] := by
    decide
  obtain ⟨runs, hruns, hbetween⟩ :=
    exists_of_foldl_dropWhile hwalk run (List.mem_insertionSort _ |>.mpr hrun)
  obtain ⟨front, hfront⟩ := (List.mem_tails _ _).mp hruns
  cases runs with
  | nil => cases hbetween
  | cons run' more => exact isApart_of_isBetween hfront.symm hother hbetween

/-! ## Folding -/

theorem FoldRun.isAt_iff (run : FoldRun) (distance : Nat) :
    run.isAt distance = true ↔ run.first + distance ≤ run.last ∧ distance % run.step = 0 := by
  simp [isAt]

theorem foldCodePoint_of_isAt {run : FoldRun} (hrun : run ∈ foldRuns) {distance : Nat}
    (h : run.isAt distance = true) :
    foldCodePoint (run.first + distance) = run.image + distance := by
  have hsome : (foldRuns.find? fun run' => run'.first ≤ run.first + distance &&
      run'.isAt (run.first + distance - run'.first)).isSome = true :=
    List.find?_isSome.mpr ⟨run, hrun, by simpa using h⟩
  obtain ⟨run', hfound⟩ := Option.isSome_iff_exists.mp hsome
  have hholds := List.find?_some hfound
  have hsame : run' = run := by
    by_contra hne
    have hdisjoint := foldRuns_disjoint (List.mem_of_find?_eq_some hfound) hrun hne
    simp only [Bool.and_eq_true, decide_eq_true_eq, FoldRun.isAt_iff] at hholds h
    omega
  rw [foldCodePoint, hfound, hsame]
  simp

/-- A code point folds to itself, or stands in a run and folds to what stands at the same distance
from the image. -/
theorem foldCodePoint_cases (n : Nat) :
    foldCodePoint n = n ∨ ∃ run ∈ foldRuns, ∃ distance, run.isAt distance = true ∧
      n = run.first + distance ∧ foldCodePoint n = run.image + distance := by
  unfold foldCodePoint
  split
  · rename_i run hfound
    have hholds := List.find?_some hfound
    rw [Bool.and_eq_true, decide_eq_true_eq] at hholds
    exact .inr ⟨run, List.mem_of_find?_eq_some hfound, n - run.first, hholds.2, by omega, rfl⟩
  · exact .inl rfl

/-- Folding twice is folding once. -/
theorem foldCodePoint_foldCodePoint (n : Nat) :
    foldCodePoint (foldCodePoint n) = foldCodePoint n := by
  obtain hself | ⟨run, hrun, distance, hat, -, hfolded⟩ := foldCodePoint_cases n
  · rw [hself, hself]
  · rw [hfolded]
    obtain hself | ⟨run', hrun', distance', hat', heq, -⟩ :=
      foldCodePoint_cases (run.image + distance)
    · exact hself
    · have hapart := foldRuns_isApart hrun hrun'
      rw [FoldRun.isAt_iff] at hat hat'
      obtain hbefore | hbehind | ⟨hstep', hstep | hsingle, hparity⟩ := hapart
      · omega
      · omega
      · rw [hstep'] at hat'
        rw [hstep] at hat
        omega
      · rw [hstep'] at hat'
        omega

/-- The variants of a code point are the code points with the same folding. -/
theorem mem_foldVariants {m n : Nat} : m ∈ foldVariants n ↔ foldCodePoint m = foldCodePoint n := by
  have hmem : m ∈ foldVariants n ↔ m = foldCodePoint n ∨ ∃ run ∈ foldRuns,
      (run.image ≤ foldCodePoint n ∧ run.isAt (foldCodePoint n - run.image) = true) ∧
        run.first + (foldCodePoint n - run.image) = m := by
    simp [foldVariants]
  rw [hmem]
  constructor
  · rintro (rfl | ⟨run, hrun, ⟨himage, hat⟩, rfl⟩)
    · exact foldCodePoint_foldCodePoint n
    · rw [foldCodePoint_of_isAt hrun hat]
      omega
  · intro hsame
    obtain hself | ⟨run, hrun, distance, hat, rfl, hfolded⟩ := foldCodePoint_cases m
    · exact .inl (hself.symm.trans hsame)
    · rw [hsame] at hfolded
      have hdistance : foldCodePoint n - run.image = distance := by omega
      exact .inr ⟨run, hrun, ⟨by omega, by rwa [hdistance]⟩, by rw [hdistance]⟩

/-! ## Variants -/

theorem mem_dotVariants {m n : Nat} :
    m ∈ dotVariants n ↔ (n, m) ∈ dotPairs ∨ (m, n) ∈ dotPairs := by
  simp only [dotVariants, dotPairs, List.filterMap_cons, List.filterMap_nil, List.mem_cons,
    Prod.mk.injEq, List.not_mem_nil, or_false]
  grind

/-- Two code points differ in case only exactly if they have the same folding or are a pair that
differs in the dot. -/
theorem mem_caseVariants {m n : Nat} : m ∈ caseVariants n ↔
    foldCodePoint m = foldCodePoint n ∨ (n, m) ∈ dotPairs ∨ (m, n) ∈ dotPairs := by
  rw [caseVariants, List.mem_append, mem_foldVariants, mem_dotVariants]

/-- To be a variant is mutual. -/
theorem mem_caseVariants_comm {m n : Nat} : m ∈ caseVariants n ↔ n ∈ caseVariants m := by
  rw [mem_caseVariants, mem_caseVariants, eq_comm, or_comm (a := (n, m) ∈ dotPairs)]

/-! ## Characters -/

/-- Neither the code points of a run nor those that they fold to are surrogates. -/
theorem isValidChar_of_mem_foldRuns : ∀ run ∈ foldRuns,
    (run.last < 0xd800 ∨ 0xdfff < run.first ∧ run.last < 0x110000) ∧
      (run.image + (run.last - run.first) < 0xd800 ∨
        0xdfff < run.image ∧ run.image + (run.last - run.first) < 0x110000) := by
  decide

theorem isValidChar_foldCodePoint {n : Nat} (h : n.isValidChar) :
    (foldCodePoint n).isValidChar := by
  obtain hself | ⟨run, hrun, distance, hat, -, hfolded⟩ := foldCodePoint_cases n
  · rwa [hself]
  · have hvalid := (isValidChar_of_mem_foldRuns run hrun).2
    rw [FoldRun.isAt_iff] at hat
    rw [hfolded, Nat.isValidChar]
    omega

/-- The variants of a character are characters. -/
theorem isValidChar_of_mem_caseVariants {m n : Nat} (h : n.isValidChar)
    (hm : m ∈ caseVariants n) : m.isValidChar := by
  have hdots : ∀ pair ∈ dotPairs, pair.1.isValidChar ∧ pair.2.isValidChar := by decide
  obtain hsame | hdot | hdot := mem_caseVariants.mp hm
  · obtain hself | ⟨run, hrun, distance, hat, rfl, -⟩ := foldCodePoint_cases m
    · rw [← hself, hsame]
      exact isValidChar_foldCodePoint h
    · have hvalid := (isValidChar_of_mem_foldRuns run hrun).1
      rw [FoldRun.isAt_iff] at hat
      rw [Nat.isValidChar]
      omega
  · exact (hdots _ hdot).2
  · exact (hdots _ hdot).1

end Rulebook.Text
