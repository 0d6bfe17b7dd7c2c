import Mathlib
import Rulebook.Proofs.Command.Agreement
import Rulebook.Proofs.Command.Quiet

/-! # Lines of progress

A command that is asked to tell of its progress does all that it does without being asked: it
ends in the same way, prints the same on the output and leaves the same files. Among the
errors stand the lines of progress and, when these are deleted, the same lines as without.
-/

namespace Rulebook.Command

/-- Printed lines without those of progress. -/
def Line.withoutProgress (printed : List Line) : List Line :=
  printed.filter fun line => line.channel ≠ .progress

@[simp] theorem Line.withoutProgress_append (first second : List Line) :
    withoutProgress (first ++ second) = withoutProgress first ++ withoutProgress second :=
  List.filter_append first second

/-- Lines of one channel other than that of progress are all kept. -/
theorem Line.withoutProgress_map {channel : Channel} (h : channel ≠ .progress) (texts : List String) :
    withoutProgress (texts.map (⟨channel, ·⟩)) = texts.map (⟨channel, ·⟩) := by
  refine List.filter_eq_self.mpr fun line hline => ?_
  obtain ⟨text, -, rfl⟩ := List.mem_map.mp hline
  exact decide_eq_true h

/-- Channels that take no lines of progress say the same without these. -/
theorem Line.textOf_withoutProgress {isIncluded : Channel → Bool}
    (h : isIncluded .progress = false) (printed : List Line) :
    textOf isIncluded (withoutProgress printed) = textOf isIncluded printed := by
  have hfilter : ∀ line : Line,
      (isIncluded line.channel && decide (line.channel ≠ .progress)) = isIncluded line.channel := by
    intro line
    cases hchannel : line.channel <;> simp [h]
  simp only [textOf, withoutProgress, List.filter_filter, hfilter]

/-- Without the lines of progress only those of errors stand among the errors. -/
theorem Line.textOf_isForErrors_withoutProgress (printed : List Line) :
    textOf Channel.isForErrors (withoutProgress printed) =
      textOf (fun channel => channel = .error) printed := by
  have hfilter : ∀ line : Line, (line.channel.isForErrors && decide (line.channel ≠ .progress)) =
      decide (line.channel = .error) := by
    intro line
    cases line.channel <;> rfl
  simp only [textOf, withoutProgress, List.filter_filter, hfilter]

/-! ## Steps -/

namespace Step

variable {ε α β : Type}

theorem printed_bind_of_ok {s : Step ε α} {a : α} (h : s.result = .ok a) (next : α → Step ε β) :
    (s >>= next).printed = s.printed ++ (next a).printed :=
  congrArg printed (andThen_of_ok h next)

theorem printed_bind_of_error {s : Step ε α} {e : ε} (h : s.result = .error e)
    (next : α → Step ε β) : (s >>= next).printed = s.printed :=
  congrArg printed (andThen_of_error h next)

/-- A step prints nothing if none of its parts does. -/
theorem printed_bind_eq_nil {s : Step ε α} {next : α → Step ε β} (hs : s.printed = [])
    (hnext : ∀ a, (next a).printed = []) : (s >>= next).printed = [] := by
  cases h : s.result with
  | error e => rw [printed_bind_of_error h, hs]
  | ok a => rw [printed_bind_of_ok h, hs, hnext, List.append_nil]

/-- A step without the lines of progress that it prints. -/
def withoutProgress (s : Step ε α) : Step ε α := ⟨Line.withoutProgress s.printed, s.result⟩

@[simp] theorem result_withoutProgress (s : Step ε α) : s.withoutProgress.result = s.result := rfl

@[simp] theorem printed_withoutProgress (s : Step ε α) :
    s.withoutProgress.printed = Line.withoutProgress s.printed := rfl

theorem withoutProgress_bind (s : Step ε α) (next : α → Step ε β) :
    (s >>= next).withoutProgress = s.withoutProgress >>= fun a => (next a).withoutProgress := by
  change (s.andThen next).withoutProgress = s.withoutProgress.andThen _
  cases h : s.result with
  | error e => rw [andThen_of_error h, andThen_of_error (s := s.withoutProgress) h]; rfl
  | ok a =>
      rw [andThen_of_ok h, andThen_of_ok (s := s.withoutProgress) h, withoutProgress,
        Line.withoutProgress_append]
      rfl

@[simp] theorem withoutProgress_ofExcept (result : Except ε α) :
    (ofExcept result).withoutProgress = ofExcept result := rfl

@[simp] theorem withoutProgress_pure (a : α) : (pure a : Step ε α).withoutProgress = pure a := rfl

@[simp] theorem withoutProgress_progress (isAsked : Bool) (text : String) :
    (progress isAsked text : Step ε Unit).withoutProgress = progress false text := by
  cases isAsked <;> rfl

end Step

/-- An outcome without the lines of progress. -/
def Outcome.withoutProgress {ε : Type} (o : Outcome ε) : Outcome ε :=
  { o with printed := Line.withoutProgress o.printed }

/-- What is done by the quiet one of two outcomes is done by the loud one, too, which tells of
progress among the errors and adds nothing else. -/
structure Outcome.AddsOnlyProgress {ε : Type} (loud quiet : Outcome ε) : Prop where
  ending : loud.ending = quiet.ending
  output : loud.output = quiet.output
  files : loud.files = quiet.files
  printed : quiet.printed = loud.printed.filter fun line => line.channel ≠ .progress
  errors : quiet.errors = Line.textOf (fun channel => channel = .error) loud.printed

theorem Outcome.addsOnlyProgress_withoutProgress {ε : Type} (o : Outcome ε) :
    o.AddsOnlyProgress o.withoutProgress where
  ending := rfl
  output := (Line.textOf_withoutProgress rfl _).symm
  files := rfl
  printed := rfl
  errors := Line.textOf_isForErrors_withoutProgress _

/-! ## Commands -/

namespace Request

variable {ε : Type} {files : Files} {preferences : Preferences}

theorem conclude_withoutProgress (checks : Step (Interruption ε) Nat) :
    conclude files checks.withoutProgress = (conclude files checks).withoutProgress := by
  unfold conclude
  rw [Step.result_withoutProgress]
  split <;> rfl

theorem failWith_withoutProgress (printed : List Line) (problem : Problem ε) :
    failWith files (Line.withoutProgress printed) problem =
      (failWith files printed problem).withoutProgress := by
  unfold failWith
  split
  · rfl
  · rw [Outcome.withoutProgress, Line.withoutProgress_append,
      Line.withoutProgress_map (show Channel.error ≠ .progress by decide)]

theorem refuseOutput_withoutProgress (printed : List Line) (output : Path) :
    (refuseOutput files (Line.withoutProgress printed) output : Outcome ε) =
      (refuseOutput files printed output).withoutProgress := by
  unfold refuseOutput
  split
  · rfl
  · split <;> rfl

theorem emit_quiet (printed : List Line) (output text : String) :
    (emit files preferences.quiet (Line.withoutProgress printed) output text : Outcome ε) =
      (emit files preferences printed output text).withoutProgress := by
  unfold emit
  split
  · rw [Outcome.withoutProgress, Line.withoutProgress_append]
    rfl
  split
  · exact refuseOutput_withoutProgress printed _
  · simp only
    split
    · rfl
    · have hprogress : ∀ size : String,
          (Step.progress preferences.quiet.debug size : Step (Interruption ε) Unit).printed =
            Line.withoutProgress
              (Step.progress preferences.debug size : Step (Interruption ε) Unit).printed :=
        fun size => congrArg Step.printed (Step.withoutProgress_progress preferences.debug size).symm
      rw [Outcome.withoutProgress, Line.withoutProgress_append, hprogress]
      rfl

end Request

namespace Loader

variable {ε : Type} {load : Loader ε} {files : Files} {preferences : Preferences} {path : String}

theorem readTree_quiet :
    load.readTree preferences.quiet path = (load.readTree preferences path).withoutProgress := by
  simp only [readTree, Step.withoutProgress_bind, Step.withoutProgress_ofExcept,
    Step.withoutProgress_progress, Step.withoutProgress_pure]
  rfl

theorem readGrammar_quiet :
    load.readGrammar preferences.quiet path = (load.readGrammar preferences path).withoutProgress := by
  simp only [readGrammar, readTree_quiet, Step.withoutProgress_bind, Step.withoutProgress_ofExcept,
    Step.withoutProgress_progress, Step.withoutProgress_pure]
  rfl

theorem readFields_quiet :
    load.readFields preferences.quiet path = (load.readFields preferences path).withoutProgress := by
  simp only [readFields, readTree_quiet, Step.withoutProgress_bind, Step.withoutProgress_ofExcept]

/-- Reading a tree prints nothing but lines of progress. -/
theorem printed_readTree (quiet : preferences.debug = false) :
    (load.readTree preferences path).printed = [] := by
  rw [readTree, quiet]
  refine Step.printed_bind_eq_nil rfl fun text => Step.printed_bind_eq_nil rfl fun _ => ?_
  exact Step.printed_bind_eq_nil rfl fun tree => Step.printed_bind_eq_nil rfl fun _ => rfl

/-- Nothing that is printed while a grammar is read stands on the output. -/
theorem output_readGrammar :
    Line.textOf (!·.isForErrors) (load.readGrammar preferences path).printed = "" := by
  have hquiet : (load.readGrammar preferences.quiet path).printed = [] := by
    refine Step.printed_bind_eq_nil (printed_readTree rfl) fun tree => ?_
    exact Step.printed_bind_eq_nil rfl fun fields => Step.printed_bind_eq_nil rfl fun _ => rfl
  rw [readGrammar_quiet, Step.printed_withoutProgress] at hquiet
  rw [← Line.textOf_withoutProgress rfl, hquiet]
  rfl

theorem checkFile_quiet :
    load.checkFile preferences.quiet path = (load.checkFile preferences path).withoutProgress := by
  unfold checkFile
  simp only [readFields_quiet, Step.result_withoutProgress, Step.printed_withoutProgress]
  split
  · simp only [Step.withoutProgress, Line.withoutProgress_append]
    rfl
  · split
    · rfl
    · simp only [Step.withoutProgress, Line.withoutProgress_append,
        Line.withoutProgress_map (show Channel.error ≠ .progress by decide)]

theorem checkFiles_quiet {paths : List String} :
    load.checkFiles preferences.quiet paths = (load.checkFiles preferences paths).withoutProgress := by
  induction paths with
  | nil => rfl
  | cons path rest ih =>
      simp only [checkFiles, checkFile_quiet, ih, Step.withoutProgress_bind, Step.withoutProgress_pure]

theorem countFailures_quiet {paths : List String} :
    load.countFailures preferences.quiet paths =
      (load.countFailures preferences paths).withoutProgress := by
  simp only [countFailures, checkFiles_quiet, Step.withoutProgress_bind,
    Step.withoutProgress_progress, Step.withoutProgress_pure]
  rfl

theorem runAst_quiet {json : Bool} {output : String} :
    load.runAst files preferences.quiet path json output =
      (load.runAst files preferences path json output).withoutProgress := by
  simp only [runAst, readGrammar_quiet, Step.result_withoutProgress, Step.printed_withoutProgress]
  split
  · exact Request.failWith_withoutProgress _ _
  · split
    · rfl
    · exact Request.emit_quiet _ _ _

theorem runCst_quiet :
    load.runCst files preferences.quiet path = (load.runCst files preferences path).withoutProgress := by
  simp only [runCst, readTree_quiet, Step.result_withoutProgress, Step.printed_withoutProgress]
  split
  · exact Request.failWith_withoutProgress _ _
  · split
    · rfl
    · rw [Outcome.withoutProgress, Line.withoutProgress_append]
      rfl

/-- A request that does not ask for progress comes to the same without the lines of it. -/
theorem run_quiet (load : Loader ε) (files : Files) (request : Request) :
    load.run files request.quiet = (load.run files request).withoutProgress := by
  cases request with
  | check paths preferences =>
      exact (congrArg (Request.conclude files) countFailures_quiet).trans
        (Request.conclude_withoutProgress _)
  | ast path json output preferences => exact runAst_quiet
  | cst path preferences => exact runCst_quiet

end Loader

/-- Telling of progress adds nothing but lines of progress among the errors: whatever codecs there
are to load the files, and whatever these raise, the request ends in the same way, with the same
output and the same files, and the errors without these lines are those of the quiet request.
A command line that is understood is understood without the option for progress, wherever this
stands and whatever is run together with it, and makes the quiet request; a line that makes a quiet
request has no such option. Behind the command the option is always understood, and a line that
does not begin with a command makes no request. -/
theorem loud_adds_only_progress {ε : Type} (load : Loader ε) (files : Files) :
    (∀ request : Request,
      (load.run files request.loud).AddsOnlyProgress (load.run files request.quiet)) ∧
    (∀ (words : List String) (request : Request), Request.ofCommandLine words = .ok request →
      Request.ofCommandLine (Request.withoutDebug words) = .ok request.quiet ∧
      (load.run files request).AddsOnlyProgress (load.run files request.quiet) ∧
      (request = request.loud ∨ request = request.quiet ∧ Request.withoutDebug words = words)) ∧
    (∀ (command : CommandName) (words : List String),
      Request.ofCommandLine (command.word :: "-D" :: words) =
        (Request.ofCommandLine (command.word :: words)).map Request.loud) ∧
    ∀ words : List String,
      (∃ (command : CommandName) (rest : List String), words = command.word :: rest) ∨
      Request.ofCommandLine words = .error .help ∨ Request.ofCommandLine words = .error .misuse := by
  have hrun : ∀ request : Request,
      (load.run files request).AddsOnlyProgress (load.run files request.quiet) := by
    intro request
    rw [Loader.run_quiet]
    exact Outcome.addsOnlyProgress_withoutProgress _
  refine ⟨fun request => ?_, fun words request hwords => ?_, Request.ofCommandLine_debug,
    fun words => ?_⟩
  · have hquiet : request.quiet = request.loud.quiet := by cases request <;> rfl
    rw [hquiet]
    exact hrun request.loud
  · obtain ⟨hline, hloud⟩ := Request.ofCommandLine_withoutDebug hwords
    exact ⟨hline, hrun request, hloud⟩
  · by_cases h : ∃ (command : CommandName) (rest : List String), words = command.word :: rest
    · exact .inl h
    · exact .inr (Request.ofCommandLine_of_ne_word fun command rest heq => h ⟨command, rest, heq⟩)

/-- The option for progress behind the file, by its name cut short and in front of another letter:
the files are read as they stand, or by a codec that raises what is not known here. -/
theorem loud_adds_only_progress_trailing :
    let writing (debug : Bool) : Request := .ast "g" false "new/x" ⟨debug, "utf-8"⟩
    let codec : Loader String := fun _ _ => .error (.interruption (.codec "undefined encoding"))
    Request.ofCommandLine ["check", "g", "-D"] = .ok (.check ["g"] ⟨true, "utf-8"⟩) ∧
    Request.ofCommandLine ["check", "g"] = .ok (.check ["g"] ⟨false, "utf-8"⟩) ∧
    Request.ofCommandLine ["ast", "g", "--deb", "-DDo", "new/x"] = .ok (writing true) ∧
    Request.ofCommandLine ["ast", "g", "-o", "new/x"] = .ok (writing false) ∧
    ((writing true).run oneSetting).AddsOnlyProgress ((writing false).run oneSetting) ∧
    (codec.run oneSetting (writing true)).AddsOnlyProgress (codec.run oneSetting (writing false)) ∧
    (codec.run oneSetting (writing true)).ending = .interrupted (.codec "undefined encoding") := by
  intro writing codec
  have hcheck : Request.ofCommandLine ["check", "g", "-D"] = .ok (.check ["g"] ⟨true, "utf-8"⟩) := by
    cbv
  have hwrite : Request.ofCommandLine ["ast", "g", "--deb", "-DDo", "new/x"] = .ok (writing true) := by
    cbv
  obtain ⟨-, hlines, -⟩ := loud_adds_only_progress (Loader.ofFiles oneSetting) oneSetting
  obtain ⟨-, hlines', -⟩ := loud_adds_only_progress codec oneSetting
  obtain ⟨hquiet, -⟩ := hlines _ _ hcheck
  obtain ⟨hquiet', hrun, -⟩ := hlines _ _ hwrite
  obtain ⟨-, hrun', -⟩ := hlines' _ _ hwrite
  exact ⟨hcheck, hquiet, hwrite, hquiet', hrun, hrun', rfl⟩

example : (((Request.check ["g"] ⟨false, "utf-8"⟩).loud).run oneSetting).errors =
    "[DEBUG] g: read 3 chars\n[DEBUG] g: CST ready | fields=1\n"
      ++ "[DEBUG] checked 1 file(s), 0 failed\n" := by
  decide +kernel

end Rulebook.Command
