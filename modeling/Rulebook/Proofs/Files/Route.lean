import Mathlib.Tactic
import Rulebook.Files.Basic

/-! # The route of a path

Each name of a path leads from one place to the next. Directories are made along a path
exactly if no file stands on its route, and only where there is nothing. Once they are made,
a file can be written at the goal of a path unless there is a directory.
-/

namespace Rulebook.Files

variable {files made : Files} {p : Path}

/-! ## Places on the way -/

/-- The place at which a path starts. -/
def startOf (files : Files) (p : Path) : Place := if p.isAbsolute then [] else files.here

/-- The place to which a path leads. -/
def goal (files : Files) (p : Path) : Place := p.names.foldl next (files.startOf p)

/-- The places at which names are looked up one after another, from a place on. -/
def passed (place : Place) : List String → List Place
  | [] => []
  | name :: rest => place :: passed (next place name) rest

/-- The places on a path, from its start to its goal. -/
def route (files : Files) (p : Path) : List Place :=
  passed (files.startOf p) p.names ++ [files.goal p]

/-- Whether a file stands at a place. -/
def isFile (files : Files) (place : Place) : Bool :=
  match files.find? place with
  | some (.file _) => true
  | _ => false

/-- No file stands at any of some places. -/
def Clear (files : Files) (places : List Place) : Prop :=
  ∀ q ∈ places, files.isFile q = false

instance (files : Files) (places : List Place) : Decidable (files.Clear places) :=
  inferInstanceAs (Decidable (∀ q ∈ places, files.isFile q = false))

theorem passed_append (place : Place) (names more : List String) :
    passed place (names ++ more) = passed place names ++ passed (names.foldl next place) more := by
  induction names generalizing place with
  | nil => rfl
  | cons name rest ih => rw [List.cons_append, passed, ih, passed, List.foldl_cons, List.cons_append]

/-- The last name of a path is looked up at the goal of its parent. -/
theorem passed_eq_route_parent (h : p.names ≠ []) :
    passed (files.startOf p) p.names = files.route p.parent := by
  have hlast : passed (files.startOf p) [p.names.getLast h] = [files.startOf p] := rfl
  have hstart : files.startOf p.parent = files.startOf p := rfl
  conv_lhs => rw [← List.dropLast_append_getLast h, passed_append]
  rw [route, goal, hstart]
  rfl

theorem passed_subset_route_parent (files : Files) (p : Path) :
    passed (files.startOf p) p.names ⊆ files.route p.parent := by
  by_cases h : p.names = []
  · rw [h]
    exact List.nil_subset _
  · rw [passed_eq_route_parent h]
    exact List.Subset.refl _

theorem isFile_eq_false_iff {place : Place} :
    files.isFile place = false ↔ files.find? place = none ∨ files.find? place = some .directory := by
  unfold isFile
  rcases files.find? place with _ | _ | bytes <;> simp

/-! ## Walking -/

section Walking

variable {place : Place} {names : List String}

theorem walk_of_directories (h : ∀ q ∈ passed place names, files.find? q = some .directory) :
    files.walk place names = .ok (names.foldl next place) := by
  induction names generalizing place with
  | nil => rfl
  | cons name rest ih =>
      obtain ⟨hplace, hrest⟩ := List.forall_mem_cons.mp h
      rw [walk, hplace]
      exact ih hrest

/-- A name cannot be looked up where there is nothing. -/
theorem walk_of_gap (clear : files.Clear (passed place names))
    (gap : ∃ q ∈ passed place names, files.find? q = none) :
    files.walk place names = .error .notFound := by
  induction names generalizing place with
  | nil =>
      obtain ⟨q, hq, -⟩ := gap
      cases hq
  | cons name rest ih =>
      obtain ⟨hplace, hrest⟩ := List.forall_mem_cons.mp clear
      rcases isFile_eq_false_iff.mp hplace with hnone | hdirectory
      · rw [walk, hnone]
      · rw [walk, hdirectory]
        refine ih hrest ?_
        obtain ⟨q, hq, hgap⟩ := gap
        rcases List.mem_cons.mp hq with rfl | hmore
        · rw [hgap] at hdirectory
          cases hdirectory
        · exact ⟨q, hmore, hgap⟩

/-- No name can be looked up in a file, if the walk comes so far at all. -/
theorem exists_walk_error (h : ¬ files.Clear (passed place names)) :
    ∃ fault, files.walk place names = .error fault := by
  induction names generalizing place with
  | nil => exact absurd (by intro q hq; cases hq) h
  | cons name rest ih =>
      rw [walk]
      split
      · exact ⟨_, rfl⟩
      · exact ⟨_, rfl⟩
      · next hdirectory =>
          refine ih fun hrest => h (List.forall_mem_cons.mpr ⟨?_, hrest⟩)
          exact isFile_eq_false_iff.mpr (.inr hdirectory)

end Walking

theorem place_of_directories
    (h : ∀ q ∈ passed (files.startOf p) p.names, files.find? q = some .directory) :
    files.place p = .ok (files.goal p) := by
  have hwalk := walk_of_directories h
  rw [startOf] at hwalk
  rw [place, hwalk]
  rfl

theorem place_of_gap (clear : files.Clear (passed (files.startOf p) p.names))
    (gap : ∃ q ∈ passed (files.startOf p) p.names, files.find? q = none) :
    files.place p = .error ⟨.notFound, p⟩ := by
  have hwalk := walk_of_gap clear gap
  rw [startOf] at hwalk
  rw [place, hwalk]

theorem exists_place_error (h : ¬ files.Clear (passed (files.startOf p) p.names)) :
    ∃ e, files.place p = .error e := by
  obtain ⟨fault, hwalk⟩ := exists_walk_error h
  rw [startOf] at hwalk
  exact ⟨⟨fault, p⟩, by rw [place, hwalk]⟩

/-! ## Making directories -/

theorem makeDirectory_of_error {e : FileError} (h : files.place p = .error e) :
    files.makeDirectory p = .error e := by
  rw [makeDirectory, h]

theorem ensureDirectory_of_error {e : FileError} (h : files.place p = .error e) :
    files.ensureDirectory p = ⟨files, some e⟩ := by
  have hnot : files.isDirectory p = false := by rw [isDirectory, h]
  simp [ensureDirectory, makeDirectory_of_error h, hnot]

theorem ensureDirectory_of_none {q : Place} (h : files.place p = .ok q)
    (hq : files.find? q = none) : files.ensureDirectory p = ⟨files.put q .directory, none⟩ := by
  simp [ensureDirectory, makeDirectory, h, hq]

theorem ensureDirectory_of_directory {q : Place} (h : files.place p = .ok q)
    (hq : files.find? q = some .directory) : files.ensureDirectory p = ⟨files, none⟩ := by
  simp [ensureDirectory, makeDirectory, isDirectory, h, hq]

theorem ensureDirectory_of_isFile {q : Place} (h : files.place p = .ok q)
    (hq : files.isFile q = true) : ∃ e, files.ensureDirectory p = ⟨files, some e⟩ := by
  unfold isFile at hq
  split at hq
  · next bytes hfind => exact ⟨⟨.alreadyExists, p⟩, by simp [ensureDirectory, makeDirectory, isDirectory, h, hfind]⟩
  · cases hq

/-- Where the place of a path is known, no directory above it is made. -/
theorem ensureDirectories_of_place {q : Place} (h : files.place p = .ok q) :
    files.ensureDirectories p = files.ensureDirectory p := by
  rw [ensureDirectories]
  cases hfind : files.find? q with
  | none => simp [makeDirectory, h, hfind, ensureDirectory]
  | some entry => simp [makeDirectory, h, hfind]

theorem ensureDirectories_of_error {e : FileError} (h : files.place p = .error e)
    (hfault : e.fault ≠ .notFound) : files.ensureDirectories p = ⟨files, some e⟩ := by
  rw [ensureDirectories, makeDirectory_of_error h]
  simp [hfault, ensureDirectory_of_error h]

/-- Behind a gap the directories above are made first. -/
theorem ensureDirectories_of_notFound {e : FileError} (h : files.place p = .error e)
    (hfault : e.fault = .notFound) (hnames : p.names ≠ []) :
    files.ensureDirectories p =
      match files.ensureDirectories p.parent with
      | ⟨made, some e⟩ => ⟨made, some e⟩
      | ⟨made, none⟩ => made.ensureDirectory p := by
  rw [ensureDirectories, makeDirectory_of_error h]
  exact dif_pos ⟨hfault, hnames⟩

/-- Directories stand at places where there was nothing, and all else is as before. -/
structure FilledAlong (places : List Place) (files made : Files) : Prop where
  here_eq : made.here = files.here
  find?_eq : ∀ q, made.find? q =
    if q ∈ places ∧ files.find? q = none then some .directory else files.find? q

namespace FilledAlong

variable {places : List Place}

theorem refl (h : ∀ q ∈ places, files.find? q = some .directory) : FilledAlong places files files := by
  refine ⟨rfl, fun q => ?_⟩
  split
  · next hq =>
      rw [h q hq.1] at hq
      cases hq.2
  · rfl

/-- At places that were clear there are directories now. -/
theorem directory (h : FilledAlong places files made) (clear : files.Clear places) {q : Place}
    (hq : q ∈ places) : made.find? q = some .directory := by
  rw [h.find?_eq]
  rcases isFile_eq_false_iff.mp (clear q hq) with hnone | hdirectory
  · rw [if_pos ⟨hq, hnone⟩]
  · rw [if_neg (by simp [hdirectory]), hdirectory]

/-- One more directory where there is nothing. -/
theorem put (h : FilledAlong places files made) {q : Place} (hq : made.find? q = none) :
    FilledAlong (places ++ [q]) files (made.put q .directory) := by
  have hroot : q ≠ [] := by
    rintro rfl
    cases hq
  refine ⟨h.here_eq, fun r => ?_⟩
  rw [h.find?_eq] at hq
  by_cases hr : r = q
  · subst hr
    have hnone : files.find? r = none := by
      split at hq
      · cases hq
      · exact hq
    rw [find?_put_self _ hroot, if_pos ⟨by simp, hnone⟩]
  · rw [find?_put_of_ne _ hr, h.find?_eq]
    simp [hr]

/-- One more place at which there is something. -/
theorem keep (h : FilledAlong places files made) {q : Place} (hq : made.find? q ≠ none) :
    FilledAlong (places ++ [q]) files made := by
  refine ⟨h.here_eq, fun r => ?_⟩
  by_cases hr : r = q
  · subst hr
    rw [h.find?_eq] at hq ⊢
    by_cases hnone : files.find? r = none
    · have hmem : r ∈ places := by
        by_contra hmem
        rw [if_neg (by simp [hmem]), hnone] at hq
        exact hq rfl
      simp [hmem]
    · simp [hnone]
  · rw [h.find?_eq]
    simp [hr]

theorem startOf_eq (h : FilledAlong places files made) (p : Path) : made.startOf p = files.startOf p := by
  rw [startOf, startOf, h.here_eq]

theorem goal_eq (h : FilledAlong places files made) (p : Path) : made.goal p = files.goal p := by
  rw [goal, goal, h.startOf_eq]

theorem isFile_eq (h : FilledAlong places files made) {q : Place} : made.isFile q = files.isFile q := by
  unfold isFile
  rw [h.find?_eq]
  by_cases hq : q ∈ places ∧ files.find? q = none
  · rw [if_pos hq, hq.2]
  · rw [if_neg hq]

/-- The goal of a path is found once its parents are directories. -/
theorem place_eq (h : FilledAlong (files.route p.parent) files made)
    (clear : files.Clear (files.route p.parent)) : made.place p = .ok (files.goal p) := by
  rw [← h.goal_eq]
  refine place_of_directories fun q hq => h.directory clear ?_
  rw [h.startOf_eq] at hq
  exact passed_subset_route_parent files p hq

end FilledAlong

/-- One more directory is made, or is there, unless a file is. -/
theorem FilledAlong.exists_ensureDirectory {places : List Place} {q : Place}
    (h : FilledAlong places files made) (hplace : made.place p = .ok q)
    (hq : files.isFile q = false) :
    ∃ left, made.ensureDirectory p = ⟨left, none⟩ ∧ FilledAlong (places ++ [q]) files left := by
  cases hfind : made.find? q with
  | none => exact ⟨_, ensureDirectory_of_none hplace hfind, h.put hfind⟩
  | some entry =>
      have hdirectory : made.find? q = some .directory := by
        have hsame := h.find?_eq q
        split at hsame
        · exact hsame
        · rw [hsame] at hfind ⊢
          rcases isFile_eq_false_iff.mp hq with hnone | hdirectory
          · rw [hnone] at hfind
            cases hfind
          · exact hdirectory
      exact ⟨_, ensureDirectory_of_directory hplace hdirectory, h.keep (by simp [hfind])⟩

/-- Of places that are clear some are no directories only if there is nothing. -/
theorem Clear.exists_gap {places : List Place} (clear : files.Clear places)
    (h : ¬ ∀ q ∈ places, files.find? q = some .directory) : ∃ q ∈ places, files.find? q = none := by
  simp only [not_forall] at h
  obtain ⟨q, hq, hne⟩ := h
  exact ⟨q, hq, (isFile_eq_false_iff.mp (clear q hq)).resolve_right hne⟩

theorem clear_route :
    files.Clear (files.route p) ↔
      files.Clear (passed (files.startOf p) p.names) ∧ files.isFile (files.goal p) = false := by
  simp [Clear, route, or_imp, forall_and]

/-- The names of a path are not all looked up if one of them cannot be. -/
theorem names_ne_nil_of_passed {q : Place} (h : q ∈ passed (files.startOf p) p.names) :
    p.names ≠ [] := by
  intro hnames
  rw [hnames] at h
  cases h

/-- Along a route without files directories are made. -/
theorem exists_ensureDirectories {p : Path} (clear : files.Clear (files.route p)) :
    ∃ made, files.ensureDirectories p = ⟨made, none⟩ ∧ FilledAlong (files.route p) files made := by
  obtain ⟨hpassed, hgoal⟩ := clear_route.mp clear
  by_cases hdirectories : ∀ q ∈ passed (files.startOf p) p.names, files.find? q = some .directory
  · have hplace := place_of_directories hdirectories
    rw [ensureDirectories_of_place hplace]
    exact (FilledAlong.refl hdirectories).exists_ensureDirectory hplace hgoal
  · -- The parent comes first. Its route is that of the path up to the goal.
    obtain ⟨q, hq, hgap⟩ := hpassed.exists_gap hdirectories
    have hnames := names_ne_nil_of_passed hq
    have hparent := @passed_eq_route_parent files p hnames
    have hplace := place_of_gap hpassed ⟨q, hq, hgap⟩
    rw [hparent] at hpassed
    obtain ⟨made, hmade, hfilled⟩ := exists_ensureDirectories hpassed
    rw [ensureDirectories_of_notFound hplace rfl hnames, hmade, route, hparent]
    exact hfilled.exists_ensureDirectory (hfilled.place_eq hpassed) hgoal
termination_by p.names.length
decreasing_by
  rw [Path.parent, List.length_dropLast]
  exact Nat.sub_lt (List.length_pos_iff.mpr hnames) Nat.one_pos

/-- A file on the route is in the way of directories. -/
theorem exists_ensureDirectories_error {p : Path} (h : ¬ files.Clear (files.route p)) :
    ∃ made e, files.ensureDirectories p = ⟨made, some e⟩ := by
  by_cases hpassed : files.Clear (passed (files.startOf p) p.names)
  · -- The file stands at the goal, which is reached all the same.
    have hgoal : files.isFile (files.goal p) = true :=
      Bool.eq_true_of_not_eq_false fun hgoal => h (clear_route.mpr ⟨hpassed, hgoal⟩)
    by_cases hdirectories : ∀ q ∈ passed (files.startOf p) p.names, files.find? q = some .directory
    · have hplace := place_of_directories hdirectories
      obtain ⟨e, he⟩ := ensureDirectory_of_isFile hplace hgoal
      exact ⟨files, e, by rw [ensureDirectories_of_place hplace, he]⟩
    · obtain ⟨q, hq, hgap⟩ := hpassed.exists_gap hdirectories
      have hnames := names_ne_nil_of_passed hq
      have hplace := place_of_gap hpassed ⟨q, hq, hgap⟩
      rw [passed_eq_route_parent hnames] at hpassed
      obtain ⟨made, hmade, hfilled⟩ := exists_ensureDirectories hpassed
      obtain ⟨e, he⟩ := ensureDirectory_of_isFile (hfilled.place_eq hpassed)
        (hfilled.isFile_eq.trans hgoal)
      refine ⟨made, e, ?_⟩
      rw [ensureDirectories_of_notFound hplace rfl hnames, hmade]
      exact he
  · obtain ⟨e, hplace⟩ := exists_place_error hpassed
    by_cases hfault : e.fault = .notFound
    · have hnames : p.names ≠ [] := by
        intro hnames
        rw [hnames] at hpassed
        exact hpassed (by intro q hq; cases hq)
      rw [passed_eq_route_parent hnames] at hpassed
      obtain ⟨made, e', hmade⟩ := exists_ensureDirectories_error hpassed
      exact ⟨made, e', by rw [ensureDirectories_of_notFound hplace hfault hnames, hmade]⟩
    · exact ⟨files, e, ensureDirectories_of_error hplace hfault⟩
termination_by p.names.length
decreasing_by
  rw [Path.parent, List.length_dropLast]
  exact Nat.sub_lt (List.length_pos_iff.mpr hnames) Nat.one_pos

/-! ## Writing a file -/

/-- A file can be written at a path whose directory is made first: no file stands on the way
to it, and its goal is no directory and does not become one. -/
structure Admits (files : Files) (p : Path) : Prop where
  clear : files.Clear (files.route p.parent)
  apart : files.goal p ∉ files.route p.parent
  free : files.find? (files.goal p) ≠ some .directory

theorem write_of_admits (admits : files.Admits p)
    (h : FilledAlong (files.route p.parent) files made) (bytes : List UInt8) :
    made.write p bytes = .ok (made.put (files.goal p) (.file bytes)) := by
  have hgoal : made.find? (files.goal p) ≠ some .directory := by
    rw [h.find?_eq, if_neg fun hmem => admits.apart hmem.1]
    exact admits.free
  rw [write, h.place_eq admits.clear]
  rcases hfind : made.find? (files.goal p) with _ | _ | before
  · simp only [hfind]
  · exact absurd hfind hgoal
  · simp only [hfind]

theorem exists_write_error (clear : files.Clear (files.route p.parent)) (refused : ¬ files.Admits p)
    (h : FilledAlong (files.route p.parent) files made) (bytes : List UInt8) :
    ∃ e, made.write p bytes = .error e := by
  have hgoal : made.find? (files.goal p) = some .directory := by
    by_cases happart : files.goal p ∈ files.route p.parent
    · exact h.directory clear happart
    · rw [h.find?_eq, if_neg fun hmem => happart hmem.1]
      by_contra hfree
      exact refused ⟨clear, happart, hfree⟩
  exact ⟨⟨.isADirectory, p⟩, by rw [write, h.place_eq clear]; simp only [hgoal]⟩

/-- A file has been written at the goal of a path, and all else is as before but for directories
that have been made on the way to it. -/
structure WrittenTo (p : Path) (bytes : List UInt8) (files left : Files) : Prop where
  read_eq : left.read p = .ok bytes
  find?_eq : ∀ q, q ≠ files.goal p → left.find? q = files.find? q ∨
    q ∈ files.route p.parent ∧ files.find? q = none ∧ left.find? q = some .directory

/-- What has been written is read again. -/
theorem writtenTo_put (admits : files.Admits p) (h : FilledAlong (files.route p.parent) files made)
    (bytes : List UInt8) : WrittenTo p bytes files (made.put (files.goal p) (.file bytes)) := by
  have hroot : files.goal p ≠ [] := fun hnil => admits.free (by rw [hnil]; rfl)
  have hother : ∀ q, q ≠ files.goal p →
      (made.put (files.goal p) (.file bytes)).find? q = made.find? q :=
    fun q hq => find?_put_of_ne made hq _
  refine ⟨?_, fun q hq => ?_⟩
  · have hplace : (made.put (files.goal p) (.file bytes)).place p = .ok (files.goal p) := by
      rw [← h.goal_eq]
      refine place_of_directories fun q hq => ?_
      have hroute : q ∈ files.route p.parent := by
        refine passed_subset_route_parent files p ?_
        rw [← h.startOf_eq]
        exact hq
      -- The goal lies apart from its route, so the way to it is as it was before the file.
      rw [h.goal_eq, hother q fun heq => admits.apart (heq ▸ hroute)]
      exact h.directory admits.clear hroute
    rw [read, hplace]
    simp only [find?_put_self made hroot]
  · rw [hother q hq, h.find?_eq]
    split
    · next hmade => exact .inr ⟨hmade.1, hmade.2, rfl⟩
    · exact .inl rfl

end Rulebook.Files
