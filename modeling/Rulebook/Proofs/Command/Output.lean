import Mathlib
import Rulebook.Proofs.Command.Progress
import Rulebook.Proofs.Files.Route

/-! # Writing a grammar to a file

A grammar is printed, or written to a file that is named: the same text, whose directory is
made first. Where no file can be written at the path the command is interrupted, and nothing
is written if the grammar is not had in the first place.
-/

namespace Rulebook.Command

namespace Request

variable {files : Files} {preferences : Preferences} {file : String} {p : Path}

/-! ## Writing a text -/

/-- A text is written at a path that admits a file. -/
theorem exists_writeText (admits : files.Admits p) (text : String) :
    ∃ left, writeText files p text = ⟨left, none⟩ ∧
      Files.WrittenTo p (Charset.encodeUtf8 (text ++ "\n").toList) files left := by
  obtain ⟨made, hmade, hfilled⟩ := Files.exists_ensureDirectories admits.clear
  have hwrite := Files.write_of_admits admits hfilled (Charset.encodeUtf8 (text ++ "\n").toList)
  exact ⟨_, by simp only [writeText, hmade, hwrite], Files.writtenTo_put admits hfilled _⟩

/-- At any other path writing fails. -/
theorem exists_writeText_error (refused : ¬ files.Admits p) (text : String) :
    ∃ left e, writeText files p text = ⟨left, some e⟩ := by
  by_cases clear : files.Clear (files.route p.parent)
  · obtain ⟨made, hmade, hfilled⟩ := Files.exists_ensureDirectories clear
    obtain ⟨e, hwrite⟩ :=
      Files.exists_write_error clear refused hfilled (Charset.encodeUtf8 (text ++ "\n").toList)
    exact ⟨made, e, by simp only [writeText, hmade, hwrite]⟩
  · obtain ⟨made, e, hmade⟩ := Files.exists_ensureDirectories_error clear
    exact ⟨made, e, by simp only [writeText, hmade]⟩

/-! ## Reading a grammar -/

/-- A file that is not accepted is reported, or interrupts the command, before any output is
looked at. -/
theorem exists_runAst_of_not_accepts (refused : accepts files file preferences.encoding = false) :
    ∃ outcome : Outcome, outcome.files = files ∧ outcome.ending ≠ .exit 0 ∧
      ∀ json output, (Loader.ofFiles files).runAst files preferences file json output = outcome := by
  obtain ⟨problem, hread, -⟩ := exists_problem_of_not_accepts refused
  refine ⟨failWith files ((Loader.ofFiles files).readGrammar preferences file).printed problem,
    ?_, ?_, ?_⟩
  · unfold failWith
    split <;> rfl
  · unfold failWith
    split <;> exact fun h => by cases h
  · intro json output
    rw [Loader.runAst, Loader.readGrammar_of_error hread]

theorem lower_of_fieldsOf {tree : Tree} {fields : List Value}
    (h : (fieldsOf tree : Except Problem (List Value)) = .ok fields) :
    Lowering.lower tree = .ok (.grammar fields) := by
  unfold fieldsOf at h
  split at h <;> simp_all

/-- The grammar of a file that is accepted is the one that its text is lowered to. -/
theorem exists_runAst_of_accepts (accepted : accepts files file preferences.encoding = true)
    (json : Bool) :
    ∃ source fields text, Source.load files file preferences.encoding = .ok source ∧
      lowerText (String.ofList source) = .ok (.grammar fields) ∧
      grammarText json fields = .ok text ∧
      ∀ output, (Loader.ofFiles files).runAst files preferences file json output =
        emit files preferences ((Loader.ofFiles files).readGrammar preferences file).printed output
          text := by
  obtain ⟨source, tree, fields, hload, hparse, hread, hfields, houtput⟩ :=
    exists_tree_of_accepts accepted
  obtain ⟨text, htext⟩ := houtput json
  refine ⟨source, fields, text, hload, ?_, htext, fun output => ?_⟩
  · rw [lowerText, Document.parse, String.toList_ofList, hparse]
    simp only [lower_of_fieldsOf hfields]
  · rw [Loader.runAst, Loader.readGrammar_of_ok hread hfields]
    simp only [htext]

/-! ## Printing and writing -/

theorem emit_nowhere (printed : List Line) (text : String) :
    (emit files preferences printed "" text : Outcome) =
      ⟨printed ++ [⟨.output, text⟩], .exit 0, files⟩ := rfl

/-- A text goes to the file that is named, if the path admits one. -/
theorem emit_of_admits {output : String} (named : output ≠ "") (proper : Source.hasNul output = false)
    (admits : files.Admits (.ofString output)) (printed : List Line) (text : String) :
    let outcome : Outcome := emit files preferences printed output text
    outcome.ending = .exit 0 ∧
      Files.WrittenTo (.ofString output) (Charset.encodeUtf8 (text ++ "\n").toList) files
        outcome.files := by
  intro outcome
  obtain ⟨left, hleft, hwritten⟩ := exists_writeText admits text
  have hemit : outcome.ending = .exit 0 ∧ outcome.files = left := by
    simp [outcome, emit, named, proper, hleft]
  exact ⟨hemit.1, hemit.2 ▸ hwritten⟩

/-- At any other path the file system refuses the text, and the command is interrupted. -/
theorem exists_emit_of_not_admits {output : String} (named : output ≠ "")
    (proper : Source.hasNul output = false) (refused : ¬ files.Admits (.ofString output))
    (printed : List Line) (text : String) :
    ∃ e, (emit files preferences printed output text : Outcome).ending = .interrupted (.file e) := by
  obtain ⟨left, e, hleft⟩ := exists_writeText_error refused text
  exact ⟨e, by simp [emit, named, proper, hleft]⟩

theorem ending_emit_iff {output : String} (named : output ≠ "") (proper : Source.hasNul output = false)
    (printed : List Line) (text : String) :
    (emit files preferences printed output text : Outcome).ending = .exit 0 ↔
      files.Admits (.ofString output) := by
  refine ⟨fun hending => ?_, fun admits => (emit_of_admits named proper admits printed text).1⟩
  by_contra refused
  obtain ⟨e, hinterrupted⟩ :=
    @exists_emit_of_not_admits files preferences output named proper refused printed text
  rw [hinterrupted] at hending
  cases hending

/-- What is printed of a grammar is its text and a newline. -/
theorem output_printing (text : String) :
    (emit files preferences ((Loader.ofFiles files).readGrammar preferences file).printed ""
      text : Outcome).output = text ++ "\n" := by
  rw [emit_nowhere, Outcome.output, Line.textOf_append, Loader.output_readGrammar, String.empty_append]
  exact String.empty_append

end Request

/-- A grammar that is printed can also be written to a file, wherever no file stands on the way to
it and there is no directory: then the file holds what is printed, byte by byte, and nothing
else is changed but for directories that are made on the way. A grammar printed as data is
loaded from this text as the one that the text of the source is lowered to. Where something
is reported instead, nothing at all is made or changed, and the same is reported. -/
theorem written_eq_printed (files : Files) (file : String) (json : Bool) {output : String}
    (preferences : Preferences) (named : output ≠ "") (proper : Source.hasNul output = false) :
    let printing := Request.run files (.ast file json "" preferences)
    let writing := Request.run files (.ast file json output preferences)
    (printing.ending = .exit 0 → (writing.ending = .exit 0 ↔ files.Admits (.ofString output))) ∧
    (printing.ending = .exit 0 → files.Admits (.ofString output) →
      Files.WrittenTo (.ofString output) (Charset.encodeUtf8 printing.output.toList) files writing.files) ∧
    (printing.ending = .exit 0 → json = true →
      ∃ source v, Source.load files file preferences.encoding = .ok source ∧
        lowerText (String.ofList source) = .ok v ∧
        Value.load printing.output = .ok v ∧ v.same v = true) ∧
    (printing.ending = .exit 2 →
      writing.ending = .exit 2 ∧ writing.errors = printing.errors ∧ writing.files = files) := by
  intro printing writing
  cases haccepts : accepts files file preferences.encoding with
  | false =>
      -- Both runs fail before the output matters, in one and the same way.
      obtain ⟨outcome, hfiles, hending, hrun⟩ := Request.exists_runAst_of_not_accepts haccepts
      have hprinting : printing = outcome := hrun json ""
      have hwriting : writing = outcome := hrun json output
      rw [hprinting, hwriting]
      exact ⟨fun h => absurd h hending, fun h => absurd h hending, fun h => absurd h hending,
        fun h => ⟨h, rfl, hfiles⟩⟩
  | true =>
      -- Both runs come to one text, and differ only in where it goes.
      obtain ⟨source, fields, text, hload, hlower, htext, hrun⟩ :=
        Request.exists_runAst_of_accepts haccepts json
      have hprinting : printing = Request.emit files preferences
        ((Loader.ofFiles files).readGrammar preferences file).printed "" text := hrun ""
      have hwriting : writing = Request.emit files preferences
        ((Loader.ofFiles files).readGrammar preferences file).printed output text := hrun output
      have hprinted : printing.output = text ++ "\n" := by rw [hprinting, Request.output_printing]
      refine ⟨fun _ => ?_, fun _ admits => ?_, ?_, fun h => ?_⟩
      · rw [hwriting, Request.ending_emit_iff named proper]
      · rw [hprinted, hwriting]
        exact (Request.emit_of_admits named proper admits _ text).2
      · rintro - rfl
        have hast := isAst_of_lowerText hlower
        have hnewline : ∀ c ∈ "\n".toList, Json.isSpace c := by simp [Json.isSpace]
        have hloaded := Value.load_append_of_dump (Value.isEncodable_of_isAst hast)
          (show (Value.grammar fields).dump = .ok text from htext) hnewline
        exact ⟨source, .grammar fields, hload, hlower, hprinted ▸ hloaded, Value.same_self hast⟩
      · rw [hprinting, Request.emit_nowhere] at h
        cases h

/-- A grammar is written to a directory that is made for it, and where there is no grammar
nothing is made. -/
theorem written_eq_printed_oneSetting :
    let printing (file : String) := Request.run oneSetting (.ast file true "" ⟨false, "utf-8"⟩)
    let writing (file : String) := Request.run oneSetting (.ast file true "new/x" ⟨false, "utf-8"⟩)
    Request.ofCommandLine ["ast", "g", "--json"] = .ok (.ast "g" true "" ⟨false, "utf-8"⟩) ∧
    Request.ofCommandLine ["ast", "g", "--json", "-o", "new/x"] =
      .ok (.ast "g" true "new/x" ⟨false, "utf-8"⟩) ∧
    "new/x" ≠ "" ∧ Source.hasNul "new/x" = false ∧
    (printing "g").ending = .exit 0 ∧ oneSetting.Admits (.ofString "new/x") ∧
    (writing "g").ending = .exit 0 ∧
    Files.WrittenTo (.ofString "new/x") (Charset.encodeUtf8 (printing "g").output.toList) oneSetting
      (writing "g").files ∧
    (∃ source v, Source.load oneSetting "g" "utf-8" = .ok source ∧
      lowerText (String.ofList source) = .ok v ∧
      Value.load (printing "g").output = .ok v ∧ v.same v = true) ∧
    (printing "none").ending = .exit 2 ∧
    (writing "none").ending = .exit 2 ∧ (writing "none").errors = (printing "none").errors ∧
      (writing "none").files = oneSetting := by
  intro printing writing
  have named : "new/x" ≠ "" := by decide
  have proper : Source.hasNul "new/x" = false := by decide
  have admits : oneSetting.Admits (.ofString "new/x") :=
    ⟨by decide +kernel, by decide +kernel, by decide +kernel⟩
  have hprinted : (printing "g").ending = .exit 0 := by decide +kernel
  have hreported : (printing "none").ending = .exit 2 := by decide +kernel
  obtain ⟨hending, hwritten, hloaded, -⟩ :=
    written_eq_printed oneSetting "g" true ⟨false, "utf-8"⟩ named proper
  obtain ⟨-, -, -, hfailed⟩ := written_eq_printed oneSetting "none" true ⟨false, "utf-8"⟩ named proper
  exact ⟨by cbv, by cbv, named, proper, hprinted, admits, (hending hprinted).mpr admits,
    hwritten hprinted admits, hloaded hprinted rfl, hreported, hfailed hreported⟩

end Rulebook.Command
