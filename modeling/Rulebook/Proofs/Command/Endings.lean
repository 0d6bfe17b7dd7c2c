import Rulebook.Proofs.Command.Checks
import Rulebook.Proofs.Command.Output

/-! # How a request ends

A request ends with an exit code: well if all files that it reads are accepted, and with a
report otherwise. The only exception is a grammar that is had but cannot be written: then the
file system interrupts the request, and nothing is reported.
-/

namespace Rulebook.Command

namespace Request

/-- The files that a request reads. -/
def inputs : Request → List String
  | check paths _ => paths
  | ast path _ _ _ => [path]
  | cst path _ => [path]

/-- Whether a request has a grammar to write to a path that admits no file. -/
def FailsToWrite (files : Files) : Request → Prop
  | ast path _ output preferences =>
      accepts files path preferences.encoding = true ∧ output ≠ "" ∧ ¬ files.Admits (.ofString output)
  | _ => False

variable {files : Files} {preferences : Preferences} {file output : String}

/-- The names of a request for a grammar are proper if the paths that it uses are. -/
theorem hasNul_of_paths {json : Bool}
    (h : ∀ path ∈ (ast file json output preferences).paths, Source.hasNul path = false) :
    Source.hasNul file = false ∧ Source.hasNul output = false := by
  by_cases named : output = ""
  · subst named
    exact ⟨h file (by simp [paths]), rfl⟩
  · exact ⟨h file (by simp [paths, named]), h output (by simp [paths, named])⟩

/-- A request that names an output ends like one that does not if the file is not accepted. -/
theorem ending_ast_of_not_accepts (hfile : Source.hasNul file = false)
    (hencoding : Source.hasNul preferences.encoding = false)
    (refused : accepts files file preferences.encoding = false) (json : Bool) (output : String) :
    (run files (.ast file json output preferences)).ending = .exit failureCode := by
  obtain ⟨outcome, -, -, hrun⟩ := exists_runAst_of_not_accepts refused
  have hprinting := ending_run_of_not_accepts hfile hencoding
    (show (ast file json "" preferences).ReadsOnly file preferences.encoding from ⟨rfl, rfl, rfl⟩) refused
  rw [run, Loader.run, hrun] at hprinting ⊢
  exact hprinting

/-- A request for a grammar ends with an exit code, unless it fails to write. -/
theorem ending_ast (hfile : Source.hasNul file = false)
    (hencoding : Source.hasNul preferences.encoding = false) (proper : Source.hasNul output = false)
    {json : Bool} (h : ¬ (ast file json output preferences).FailsToWrite files) :
    (run files (.ast file json output preferences)).ending =
      .exit (if accepts files file preferences.encoding then 0 else failureCode) := by
  split
  · next accepted =>
      obtain ⟨_, _, text, -, -, -, hrun⟩ := exists_runAst_of_accepts accepted json
      rw [run, Loader.run, hrun]
      by_cases named : output = ""
      · rw [named, emit_nowhere]
      · refine (ending_emit_iff named proper _ text).mpr ?_
        by_contra refused
        exact h ⟨accepted, named, refused⟩
  · next refused =>
      exact ending_ast_of_not_accepts hfile hencoding (Bool.eq_false_iff.mpr refused) json output

theorem exists_ending_of_failsToWrite (proper : Source.hasNul output = false) {json : Bool}
    (h : (ast file json output preferences).FailsToWrite files) :
    ∃ e, (run files (.ast file json output preferences)).ending = .interrupted (.file e) := by
  obtain ⟨accepted, named, refused⟩ := h
  obtain ⟨_, _, text, -, -, -, hrun⟩ := exists_runAst_of_accepts accepted json
  rw [run, Loader.run, hrun]
  exact exists_emit_of_not_admits named proper refused _ text

/-- How a request with proper names ends. -/
theorem ending_run_of_paths (files : Files) {request : Request}
    (hpaths : ∀ path ∈ request.paths, Source.hasNul path = false)
    (hencoding : Source.hasNul request.preferences.encoding = false) :
    (¬ request.FailsToWrite files → (request.run files).ending =
      .exit (if ∀ file ∈ request.inputs, accepts files file request.preferences.encoding then 0
        else failureCode)) ∧
    (request.FailsToWrite files → ∃ e, (request.run files).ending = .interrupted (.file e)) := by
  cases request with
  | check paths preferences => exact ⟨fun _ => ending_check hpaths hencoding, fun h => h.elim⟩
  | cst file preferences =>
      have hfile := List.forall_mem_singleton.mp hpaths
      refine ⟨fun _ => ?_, fun h => h.elim⟩
      simp only [inputs, List.forall_mem_singleton]
      exact ending_run hfile hencoding ⟨rfl, rfl⟩
  | ast file json output preferences =>
      obtain ⟨hfile, hnamed⟩ := hasNul_of_paths hpaths
      simp only [inputs, List.forall_mem_singleton]
      exact ⟨ending_ast hfile hencoding hnamed, exists_ending_of_failsToWrite hnamed⟩

end Request

/-- A command line that is understood, with proper names, is answered with an exit code, which
tells whether all files that are read are accepted, unless there is a grammar to be written
to a path that admits no file: the file system interrupts this, and nothing is reported. -/
theorem answer_eq_exit (files : Files) {words : List String} {request : Request}
    (hwords : Request.ofCommandLine words = .ok request)
    (hpaths : ∀ path ∈ request.paths, Source.hasNul path = false)
    (hencoding : Source.hasNul request.preferences.encoding = false) :
    (¬ request.FailsToWrite files → answer files words =
      .ok (.exit (if ∀ file ∈ request.inputs, accepts files file request.preferences.encoding then 0
        else 2))) ∧
    (request.FailsToWrite files → ∃ e, answer files words = .ok (.interrupted (.file e))) := by
  obtain ⟨hexit, hinterrupted⟩ := Request.ending_run_of_paths files hpaths hencoding
  have hanswer : answer files words = .ok (request.run files).ending := by
    rw [answer, hwords]
    rfl
  refine ⟨fun h => by rw [hanswer, hexit h]; rfl, fun h => ?_⟩
  obtain ⟨e, he⟩ := hinterrupted h
  exact ⟨e, by rw [hanswer, he]⟩

/-- A directory cannot be made below a file: this interrupts the request for a grammar that is had,
while a missing file is reported. -/
theorem answer_eq_exit_belowFile :
    let writing (file : String) : Request := .ast file false "g/x" ⟨false, "utf-8"⟩
    Request.ofCommandLine ["ast", "g", "-o", "g/x"] = .ok (writing "g") ∧
    Request.ofCommandLine ["ast", "none", "-o", "g/x"] = .ok (writing "none") ∧
    (∀ file ∈ ["g", "none"], (∀ path ∈ (writing file).paths, Source.hasNul path = false) ∧
      Source.hasNul (writing file).preferences.encoding = false) ∧
    (writing "g").FailsToWrite oneSetting ∧
    (∃ e, answer oneSetting ["ast", "g", "-o", "g/x"] = .ok (.interrupted (.file e))) ∧
    ¬ (writing "none").FailsToWrite oneSetting ∧
    answer oneSetting ["ast", "none", "-o", "g/x"] = .ok (.exit 2) := by
  intro writing
  have hgiven : Request.ofCommandLine ["ast", "g", "-o", "g/x"] = .ok (writing "g") := by cbv
  have hmissing : Request.ofCommandLine ["ast", "none", "-o", "g/x"] = .ok (writing "none") := by cbv
  have hnames : ∀ file ∈ ["g", "none"], (∀ path ∈ (writing file).paths, Source.hasNul path = false) ∧
      Source.hasNul (writing file).preferences.encoding = false := by decide +kernel
  obtain ⟨⟨hpaths, hencoding⟩, hothers⟩ := List.forall_mem_cons.mp hnames
  obtain ⟨hpaths', hencoding'⟩ := List.forall_mem_singleton.mp hothers
  have hfails : (writing "g").FailsToWrite oneSetting := by
    refine ⟨by decide +kernel, by decide, fun admits => ?_⟩
    exact absurd admits.clear (by decide +kernel)
  have hreads : ¬ (writing "none").FailsToWrite oneSetting := by
    rintro ⟨accepted, -⟩
    exact absurd accepted (by decide +kernel)
  have hinterrupted := (answer_eq_exit oneSetting hgiven hpaths hencoding).2 hfails
  have hexit := (answer_eq_exit oneSetting hmissing hpaths' hencoding').1 hreads
  have hrefused : ¬ ∀ file ∈ (writing "none").inputs,
      accepts oneSetting file (writing "none").preferences.encoding = true := by decide +kernel
  rw [if_neg hrefused] at hexit
  exact ⟨hgiven, hmissing, hnames, hfails, hinterrupted, hreads, hexit⟩

/-- A command line that is understood, with proper names, may end without any exit code. -/
theorem answer_belowFile_no_exit :
    Request.ofCommandLine ["ast", "g", "-o", "g/x"] = .ok (.ast "g" false "g/x" ⟨false, "utf-8"⟩) ∧
    (∀ path ∈ ["g", "g/x"], Source.hasNul path = false) ∧ Source.hasNul "utf-8" = false ∧
    answer oneSetting ["ast", "g", "-o", "g/x"] =
      .ok (.interrupted (.file ⟨.alreadyExists, .ofString "g"⟩)) ∧
    ∀ code, answer oneSetting ["ast", "g", "-o", "g/x"] ≠ .ok (.exit code) := by
  have hline : Request.ofCommandLine ["ast", "g", "-o", "g/x"] =
      .ok (.ast "g" false "g/x" ⟨false, "utf-8"⟩) := by cbv
  have hanswer : answer oneSetting ["ast", "g", "-o", "g/x"] =
      .ok (.interrupted (.file ⟨.alreadyExists, .ofString "g"⟩)) := by
    rw [answer, hline]
    decide +kernel
  refine ⟨hline, by decide, by decide, hanswer, fun code h => ?_⟩
  rw [hanswer] at h
  cases h

end Rulebook.Command
