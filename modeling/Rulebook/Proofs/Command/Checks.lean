import Mathlib
import Rulebook.Proofs.Command.Progress
import Rulebook.Proofs.Lowering.Declarations

/-! # Checking several files

Every file is checked on its own, whatever came of the files before it: the lines of a check
are those of its files one after another, and it fails if one of them fails. On the output
stands a line for each file that is accepted.
-/

namespace Rulebook.Command

theorem Line.textOf_flatMap {α : Type} (isIncluded : Channel → Bool) (printed : α → List Line)
    (xs : List α) :
    textOf isIncluded (xs.flatMap printed) =
      String.join (xs.map fun x => textOf isIncluded (printed x)) := by
  induction xs with
  | nil => rfl
  | cons x rest ih => rw [List.flatMap_cons, textOf_append, ih, List.map_cons, String.join_cons]

/-- Lines among the errors print nothing on the output. -/
theorem Line.textOf_output_errors (texts : List String) :
    textOf (!·.isForErrors) (texts.map (⟨.error, ·⟩)) = "" := by
  have hnone : (texts.map fun text => (⟨.error, text⟩ : Line)).filter
      (fun line => !line.channel.isForErrors) = [] := by
    refine List.filter_eq_nil_iff.mpr fun line hline => ?_
    obtain ⟨text, -, rfl⟩ := List.mem_map.mp hline
    exact Bool.false_ne_true
  rw [textOf, hnone]
  rfl

/-- What is said of a file that is accepted: how many fields, declarations of tokens and rules
its document has. -/
def passLine (path : String) (tree : Tree) : String :=
  "[CHECK OK] " ++ path ++ " fields=" ++ toString (tree.under Role.fields).length ++ " "
    ++ ("tokens=" ++ toString tree.declarations.length ++ " rules=" ++ toString tree.rules.length)

/-- What is said of a file on the output, if its text is had and is a document. -/
def passLine? (files : Files) (encodingName path : String) : Option String :=
  match Source.load files path encodingName with
  | .error _ => none
  | .ok text =>
      match Document.parseChars text with
      | .error _ => none
      | .ok tree => some (passLine path tree)

theorem passLine?_isSome (files : Files) (encodingName path : String) :
    (passLine? files encodingName path).isSome = accepts files path encodingName := by
  unfold passLine? accepts
  cases Source.load files path encodingName with
  | error f => rfl
  | ok text =>
      simp only
      cases Document.parseChars text <;> rfl

namespace Request

variable {files : Files} {preferences : Preferences} {path : String} {paths : List String}

/-! ## One file -/

theorem printed_readFields {ε : Type} {load : Loader ε} (quiet : preferences.debug = false) :
    (load.readFields preferences path).printed = [] :=
  Step.printed_bind_eq_nil (Loader.printed_readTree quiet) fun _ => rfl

/-- The line about a file that is accepted tells the numbers in its document. -/
theorem checkFile_of_passLine {line : String} (quiet : preferences.debug = false)
    (h : passLine? files preferences.encoding path = some line) :
    (Loader.ofFiles files).checkFile preferences path = ⟨[⟨.output, line⟩], .ok true⟩ := by
  unfold passLine? at h
  split at h
  · cases h
  next text hload =>
  split at h
  · cases h
  next tree hparse =>
  cases h
  have htext : Document.parse (String.ofList text) = .ok tree := by
    rw [Document.parse, String.toList_ofList, hparse]
  obtain ⟨fields, hlower, hfields, htokens, hrules⟩ := Lowering.exists_fields htext
  have hfieldsOf : (fieldsOf tree : Except Problem (List Value)) = .ok fields := by
    rw [fieldsOf, hlower]
  have hline : "[CHECK OK] " ++ path ++ " fields=" ++ toString fields.length ++ " "
      ++ counts fields = passLine path tree := by
    simp only [counts, hfields, htokens, hrules]
    rfl
  have hread := Loader.readTree_of_parse (Loader.ofFiles_of_ok hload) hparse
  rw [Loader.checkFile_of_ok (Loader.readFields_of_ok hread hfieldsOf), printed_readFields quiet,
    hline, List.nil_append]

/-- A file that is not accepted is reported among the errors. -/
theorem exists_checkFile_of_not_accepts (quiet : preferences.debug = false)
    (hpath : Source.hasNul path = false) (hencoding : Source.hasNul preferences.encoding = false)
    (h : passLine? files preferences.encoding path = none) :
    ∃ report : Report, (Loader.ofFiles files).checkFile preferences path =
      ⟨(report.linesFor path).map (⟨.error, ·⟩), .ok false⟩ := by
  have refused : accepts files path preferences.encoding = false := by
    rw [← passLine?_isSome, h, Option.isSome_none]
  obtain ⟨problem, report, hread, hreport⟩ := exists_report_of_not_accepts hpath hencoding refused
  have hcheck := Loader.checkFile_of_error (Loader.readFields_of_error hread) hreport
  rw [printed_readFields quiet, List.nil_append] at hcheck
  exact ⟨report, hcheck⟩

/-- On the output stands the line about a file that is accepted. -/
theorem output_checkFile (quiet : preferences.debug = false)
    (hpath : Source.hasNul path = false) (hencoding : Source.hasNul preferences.encoding = false) :
    Line.textOf (!·.isForErrors) ((Loader.ofFiles files).checkFile preferences path).printed =
      String.join ((passLine? files preferences.encoding path).toList.map (· ++ "\n")) := by
  cases h : passLine? files preferences.encoding path with
  | some line =>
      rw [checkFile_of_passLine quiet h]
      rfl
  | none =>
      obtain ⟨report, hreport⟩ := exists_checkFile_of_not_accepts quiet hpath hencoding h
      rw [hreport]
      exact Line.textOf_output_errors _

/-! ## Several files -/

theorem checkFiles_eq (hpaths : ∀ path ∈ paths, Source.hasNul path = false)
    (hencoding : Source.hasNul preferences.encoding = false) :
    (Loader.ofFiles files).checkFiles preferences paths =
      ⟨paths.flatMap fun path => ((Loader.ofFiles files).checkFile preferences path).printed,
        .ok (paths.map fun path => accepts files path preferences.encoding)⟩ := by
  induction paths with
  | nil => rfl
  | cons path rest ih =>
      obtain ⟨hpath, hrest⟩ := List.forall_mem_cons.mp hpaths
      -- The others are checked in the same way whatever came of the first file.
      have hnext : ∀ passed : Bool, ((Loader.ofFiles files).checkFiles preferences rest >>= fun more =>
          (pure (passed :: more) : Step Interruption (List Bool))) =
          ⟨rest.flatMap fun path => ((Loader.ofFiles files).checkFile preferences path).printed,
            .ok (passed :: rest.map fun path => accepts files path preferences.encoding)⟩ := by
        intro passed
        rw [ih hrest]
        exact congrArg (Step.mk · _) (List.append_nil _)
      simp only [Loader.checkFiles, hnext]
      change Step.andThen _ _ = _
      rw [Step.andThen_of_ok (result_checkFile hpath hencoding)]
      rfl

/-- A check ends well if all of its files are accepted, and with a report otherwise. -/
theorem ending_check (hpaths : ∀ path ∈ paths, Source.hasNul path = false)
    (hencoding : Source.hasNul preferences.encoding = false) :
    (run files (.check paths preferences)).ending =
      .exit (if ∀ path ∈ paths, accepts files path preferences.encoding then 0 else failureCode) := by
  have hresult : ((Loader.ofFiles files).countFailures preferences paths).result =
      .ok ((paths.map fun path => accepts files path preferences.encoding).count false) := by
    simp [Loader.countFailures, checkFiles_eq hpaths hencoding]
  have hcount : ((paths.map fun path => accepts files path preferences.encoding).count false = 0) ↔
      ∀ path ∈ paths, accepts files path preferences.encoding = true := by
    simp [List.count_eq_zero]
  rw [run, Loader.run, conclude, hresult]
  simp only [hcount]

/-- The lines of a check are those of its files. -/
theorem printed_check (quiet : preferences.debug = false)
    (hpaths : ∀ path ∈ paths, Source.hasNul path = false)
    (hencoding : Source.hasNul preferences.encoding = false) :
    (run files (.check paths preferences)).printed =
      paths.flatMap fun path => ((Loader.ofFiles files).checkFile preferences path).printed := by
  have hconclude : ∀ checks : Step Interruption Nat,
      (conclude files checks).printed = checks.printed := by
    intro checks
    unfold conclude
    split <;> rfl
  rw [run, Loader.run, hconclude, Loader.countFailures, checkFiles_eq hpaths hencoding, quiet]
  exact List.append_nil _

theorem printed_check_single (quiet : preferences.debug = false)
    (hpath : Source.hasNul path = false) (hencoding : Source.hasNul preferences.encoding = false) :
    (run files (.check [path] preferences)).printed =
      ((Loader.ofFiles files).checkFile preferences path).printed := by
  rw [printed_check quiet (List.forall_mem_singleton.mpr hpath) hencoding, List.flatMap_singleton]

/-- What a check prints, on the output or among the errors, is what checks of its files one by
one print. -/
theorem textOf_check (isIncluded : Channel → Bool) (quiet : preferences.debug = false)
    (hpaths : ∀ path ∈ paths, Source.hasNul path = false)
    (hencoding : Source.hasNul preferences.encoding = false) :
    Line.textOf isIncluded (run files (.check paths preferences)).printed =
      String.join (paths.map fun path =>
        Line.textOf isIncluded (run files (.check [path] preferences)).printed) := by
  rw [printed_check quiet hpaths hencoding, Line.textOf_flatMap]
  refine congrArg String.join (List.map_congr_left fun path hpath => ?_)
  rw [printed_check_single quiet (hpaths path hpath) hencoding]

/-- On the output stand the lines about the files that are accepted, in order. -/
theorem output_check (quiet : preferences.debug = false)
    (hpaths : ∀ path ∈ paths, Source.hasNul path = false)
    (hencoding : Source.hasNul preferences.encoding = false) :
    (run files (.check paths preferences)).output =
      String.join ((paths.filterMap (passLine? files preferences.encoding)).map (· ++ "\n")) := by
  rw [Outcome.output, printed_check quiet hpaths hencoding, Line.textOf_flatMap]
  induction paths with
  | nil => rfl
  | cons path rest ih =>
      obtain ⟨hpath, hrest⟩ := List.forall_mem_cons.mp hpaths
      rw [List.map_cons, String.join_cons, ih hrest, output_checkFile quiet hpath hencoding]
      cases h : passLine? files preferences.encoding path with
      | none => simp [h]
      | some line => simp [h]

end Request

/-- What ends well just if two things hold fails just if, of the two that end well by one of them
each, one fails. -/
theorem Ending.exit_and (p q : Prop) [Decidable p] [Decidable q] :
    let ending (r : Prop) [Decidable r] : Ending := .exit (if r then 0 else 2)
    ending (p ∧ q) = .exit (if ending p = .exit 2 ∨ ending q = .exit 2 then 2 else 0) := by
  by_cases hp : p <;> by_cases hq : q <;> simp [hp, hq]

/-- Checking files prints what checking the first of them prints and then what checking the others
prints, on the output and among the errors, and fails if one of the two fails. So every file
is checked, whatever came of the others: the lines are those of the files one by one, and on
the output stands for each file that is accepted, and for no other, a line with the numbers
in its document. -/
theorem check_append (files : Files) {encodingName : String} {paths more : List String}
    (hencoding : Source.hasNul encodingName = false)
    (hpaths : ∀ path ∈ paths ++ more, Source.hasNul path = false) :
    let check (paths : List String) : Outcome :=
      Request.run files (.check paths ⟨false, encodingName⟩)
    let all := check (paths ++ more)
    all.output = (check paths).output ++ (check more).output ∧
    all.errors = (check paths).errors ++ (check more).errors ∧
    all.ending =
      .exit (if (check paths).ending = .exit 2 ∨ (check more).ending = .exit 2 then 2 else 0) ∧
    all.output = String.join ((paths ++ more).map fun path => (check [path]).output) ∧
    all.errors = String.join ((paths ++ more).map fun path => (check [path]).errors) ∧
    all.output =
      String.join (((paths ++ more).filterMap (passLine? files encodingName)).map (· ++ "\n")) := by
  intro check all
  obtain ⟨hfirst, hsecond⟩ := List.forall_mem_append.mp hpaths
  have hprinted : ∀ paths, (∀ path ∈ paths, Source.hasNul path = false) → (check paths).printed =
      paths.flatMap fun path => ((Loader.ofFiles files).checkFile ⟨false, encodingName⟩ path).printed :=
    fun paths hpaths => @Request.printed_check files ⟨false, encodingName⟩ paths rfl hpaths hencoding
  have happend : all.printed = (check paths).printed ++ (check more).printed := by
    rw [hprinted _ hpaths, hprinted _ hfirst, hprinted _ hsecond, List.flatMap_append]
  refine ⟨?_, ?_, ?_, Request.textOf_check _ rfl hpaths hencoding,
    Request.textOf_check _ rfl hpaths hencoding, Request.output_check rfl hpaths hencoding⟩
  · rw [Outcome.output, happend, Line.textOf_append]
    rfl
  · rw [Outcome.errors, happend, Line.textOf_append]
    rfl
  · have hending : ∀ paths, (∀ path ∈ paths, Source.hasNul path = false) → (check paths).ending =
        .exit (if ∀ path ∈ paths, accepts files path encodingName then 0 else 2) :=
      fun paths hpaths => Request.ending_check hpaths hencoding
    have hall : (∀ path ∈ paths ++ more, accepts files path encodingName) ↔
        (∀ path ∈ paths, accepts files path encodingName) ∧
          ∀ path ∈ more, accepts files path encodingName := List.forall_mem_append
    rw [hending _ hpaths, hending _ hfirst, hending _ hsecond]
    simp only [hall]
    exact Ending.exit_and _ _

/-- A document with three fields, one declaration and two rules. -/
def threeFields : String := "a: b tokens \x7b T: \x7b\x7d \x7d rules \x7b r: T; s: 'x'; \x7d"

/-- A file that holds a document beside one that does not. -/
def goodAndBad : Files :=
  ⟨[(["good"], .file (Charset.encodeUtf8 threeFields.toList)), (["bad"], .file [0x3a])], []⟩

/-- Files that are no document or are missing do not keep others from being checked. -/
theorem check_append_goodAndBad :
    let check (paths : List String) : Outcome :=
      Request.run goodAndBad (.check paths ⟨false, "utf-8"⟩)
    Request.ofCommandLine ["check", "bad", "good", "none", "good"] =
      .ok (.check (["bad", "good"] ++ ["none", "good"]) ⟨false, "utf-8"⟩) ∧
    Source.hasNul "utf-8" = false ∧
    (∀ path ∈ ["bad", "good"] ++ ["none", "good"], Source.hasNul path = false) ∧
    (check ["bad", "good", "none", "good"]).output =
      (check ["bad", "good"]).output ++ (check ["none", "good"]).output ∧
    (check ["bad", "good", "none", "good"]).errors =
      (check ["bad", "good"]).errors ++ (check ["none", "good"]).errors ∧
    (check ["bad", "good", "none", "good"]).output =
      "[CHECK OK] good fields=3 tokens=1 rules=2\n[CHECK OK] good fields=3 tokens=1 rules=2\n" := by
  intro check
  have hencoding : Source.hasNul "utf-8" = false := by decide
  have hpaths : ∀ path ∈ ["bad", "good"] ++ ["none", "good"], Source.hasNul path = false := by decide
  obtain ⟨houtput, herrors, -, -, -, hlines⟩ := check_append goodAndBad hencoding hpaths
  have hbad : passLine? goodAndBad "utf-8" "bad" = none := by decide +kernel
  have hnone : passLine? goodAndBad "utf-8" "none" = none := by decide +kernel
  have hload : Source.load goodAndBad "good" "utf-8" = .ok threeFields.toList := by decide +kernel
  have hgood : passLine? goodAndBad "utf-8" "good" =
      some "[CHECK OK] good fields=3 tokens=1 rules=2" := by
    rw [passLine?, hload]
    cbv
  refine ⟨by cbv, hencoding, hpaths, houtput, herrors, hlines.trans ?_⟩
  simp only [List.cons_append, List.nil_append, List.filterMap_cons, List.filterMap_nil, hbad,
    hnone, hgood]
  decide

end Rulebook.Command
