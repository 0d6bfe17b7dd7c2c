import Rulebook.Command.Run
import Rulebook.Proofs.Command.Lines
import Rulebook.Proofs.Lowering.Typed
import Rulebook.Proofs.Surface.Essence
import Rulebook.Proofs.Tree.Outline

/-! # The commands agree

A file that is read and parsed is lowered, has an outline, and is displayed and dumped, so no
command fails on it later than another. Where reading or parsing fails, each command reports
it and ends with the same exit code.
-/

namespace Rulebook.Command

/-! ## Steps -/

namespace Step

variable {ε α β : Type}

@[simp] theorem result_bind (s : Step ε α) (next : α → Step ε β) :
    (s >>= next).result = s.result >>= fun a => (next a).result := by
  change (s.andThen next).result = _
  cases h : s.result with
  | error e => rw [andThen_of_error h]; rfl
  | ok a => rw [andThen_of_ok h]; rfl

@[simp] theorem result_pure (a : α) : (pure a : Step ε α).result = .ok a := rfl

@[simp] theorem result_ofExcept (result : Except ε α) : (ofExcept result).result = result := rfl

@[simp] theorem result_progress (isAsked : Bool) (text : String) :
    (progress isAsked text : Step ε Unit).result = .ok () := by
  unfold progress
  split <;> rfl

end Step

/-- What a command line is answered with: why it is not carried out, or how its request ends. -/
def answer (files : Files) (words : List String) : Except Refusal Ending :=
  (Request.ofCommandLine words).map fun request => (request.run files).ending

/-- Whether the text of a file is had and is a document. -/
def accepts (files : Files) (path encodingName : String) : Bool :=
  match Source.load files path encodingName with
  | .ok text => (Document.parseChars text).isOk
  | .error _ => false

namespace Request

/-- Whether a request reads just this file in this encoding, and prints what comes of it. -/
def ReadsOnly (file encodingName : String) : Request → Prop
  | check paths preferences => paths = [file] ∧ preferences.encoding = encodingName
  | ast path _ output preferences =>
      path = file ∧ output = "" ∧ preferences.encoding = encodingName
  | cst path preferences => path = file ∧ preferences.encoding = encodingName

end Request

/-! ## Loaders -/

namespace Loader

variable {ε : Type} {load : Loader ε} {preferences : Preferences} {file : String}

theorem ofFiles_of_ok {files : Files} {path encodingName : String} {text : List Char}
    (h : Source.load files path encodingName = .ok text) :
    ofFiles files path encodingName = .ok text := by
  rw [ofFiles, h]
  rfl

theorem ofFiles_of_error {files : Files} {path encodingName : String} {f : LoadFailure}
    (h : Source.load files path encodingName = .error f) :
    ofFiles files path encodingName = .error (.load f) := by
  rw [ofFiles, h]
  rfl

/-! ## Reading a file -/

theorem readTree_of_parse {text : List Char} {tree : Tree}
    (hload : load file preferences.encoding = .ok text)
    (hparse : Document.parseChars text = .ok tree) :
    (load.readTree preferences file).result = .ok tree := by
  simp [readTree, hload, hparse, Except.mapError]

theorem readTree_of_load_error {problem : Problem ε}
    (hload : load file preferences.encoding = .error problem) :
    (load.readTree preferences file).result = .error problem := by
  rw [readTree, Step.result_bind, Step.result_ofExcept, hload]
  rfl

theorem readTree_of_parse_error {text : List Char} {e : SyntaxError}
    (hload : load file preferences.encoding = .ok text)
    (hparse : Document.parseChars text = .error e) :
    (load.readTree preferences file).result = .error (.text e) := by
  simp only [readTree, Step.result_bind, Step.result_ofExcept, hload, ok_bind, Step.result_progress,
    hparse]
  rfl

theorem readGrammar_of_ok {tree : Tree} {fields : List Value}
    (hread : (load.readTree preferences file).result = .ok tree)
    (hfields : (Request.fieldsOf tree : Except (Problem ε) (List Value)) = .ok fields) :
    (load.readGrammar preferences file).result = .ok fields := by
  simp [readGrammar, hread, hfields]

theorem readGrammar_of_error {problem : Problem ε}
    (hread : (load.readTree preferences file).result = .error problem) :
    (load.readGrammar preferences file).result = .error problem := by
  rw [readGrammar, Step.result_bind, hread]
  rfl

theorem readFields_of_ok {tree : Tree} {fields : List Value}
    (hread : (load.readTree preferences file).result = .ok tree)
    (hfields : (Request.fieldsOf tree : Except (Problem ε) (List Value)) = .ok fields) :
    (load.readFields preferences file).result = .ok fields := by
  simp [readFields, hread, hfields]

theorem readFields_of_error {problem : Problem ε}
    (hread : (load.readTree preferences file).result = .error problem) :
    (load.readFields preferences file).result = .error problem := by
  rw [readFields, Step.result_bind, hread]
  rfl

/-- A check tells the numbers of a file whose fields are had. -/
theorem checkFile_of_ok {fields : List Value}
    (h : (load.readFields preferences file).result = .ok fields) :
    load.checkFile preferences file =
      ⟨(load.readFields preferences file).printed ++ [⟨.output, "[CHECK OK] " ++ file ++ " fields="
        ++ toString fields.length ++ " " ++ Request.counts fields⟩], .ok true⟩ := by
  simp only [checkFile, h]

/-- A check reports what goes wrong with a file. -/
theorem checkFile_of_error {problem : Problem ε} {report : Report}
    (h : (load.readFields preferences file).result = .error problem)
    (hreport : problem.report = .ok report) :
    load.checkFile preferences file =
      ⟨(load.readFields preferences file).printed ++ (report.linesFor file).map (⟨.error, ·⟩),
        .ok false⟩ := by
  simp only [checkFile, h, hreport]

theorem ending_check_of_checkFile {files : Files} {passed : Bool}
    (h : (load.checkFile preferences file).result = .ok passed) :
    (load.run files (.check [file] preferences)).ending =
      .exit (if passed then 0 else Request.failureCode) := by
  have hchecks : (load.checkFiles preferences [file]).result = .ok [passed] := by
    simp [checkFiles, h]
  cases passed <;> simp [run, Request.conclude, countFailures, hchecks]

end Loader

namespace Request

variable {files : Files} {preferences : Preferences} {file encodingName : String}

/-! ## Files that are accepted -/

theorem exists_parse_of_accepts (accepted : accepts files file encodingName = true) :
    ∃ text, Source.load files file encodingName = .ok text ∧
      ∃ tree, Document.parseChars text = .ok tree := by
  unfold accepts at accepted
  split at accepted
  · next text hload => exact ⟨text, hload, exists_of_isOk accepted⟩
  · cases accepted

theorem load_ne_nulCharacter (hfile : Source.hasNul file = false)
    (hencoding : Source.hasNul encodingName = false) :
    Source.load files file encodingName ≠ .error .nulCharacter := by
  intro h
  unfold Source.load at h
  rw [hencoding, hfile] at h
  simp only [Bool.false_eq_true, if_false] at h
  split at h
  · cases h
  split at h
  · cases h
  unfold Source.decode at h
  split at h
  · split at h <;> cases h
  · split at h <;> cases h

/-- Where a file is not accepted, its text is not had or is no document. -/
theorem exists_problem_of_not_accepts (h : accepts files file preferences.encoding = false) :
    ∃ problem, ((Loader.ofFiles files).readTree preferences file).result = .error problem ∧
      ((∃ f, problem = .load f ∧ Source.load files file preferences.encoding = .error f) ∨
        ∃ e, problem = .text e) := by
  unfold accepts at h
  cases hload : Source.load files file preferences.encoding with
  | error f =>
      exact ⟨.load f, Loader.readTree_of_load_error (Loader.ofFiles_of_error hload),
        .inl ⟨f, rfl, rfl⟩⟩
  | ok text =>
      cases hparse : Document.parseChars text with
      | ok tree =>
          rw [hload] at h
          simp [hparse, Except.isOk, Except.toBool] at h
      | error e =>
          exact ⟨.text e, Loader.readTree_of_parse_error (Loader.ofFiles_of_ok hload) hparse,
            .inr ⟨e, rfl⟩⟩

/-- Where a file is not accepted, what goes wrong is reported. -/
theorem exists_report_of_not_accepts (hfile : Source.hasNul file = false)
    (hencoding : Source.hasNul preferences.encoding = false)
    (h : accepts files file preferences.encoding = false) :
    ∃ problem report, ((Loader.ofFiles files).readTree preferences file).result = .error problem ∧
      problem.report = .ok report := by
  obtain ⟨problem, hread, ⟨f, rfl, hload⟩ | ⟨e, rfl⟩⟩ := exists_problem_of_not_accepts h
  · have hf : f ≠ .nulCharacter := by
      rintro rfl
      exact load_ne_nulCharacter hfile hencoding hload
    cases f with
    | nulCharacter => exact absurd rfl hf
    | _ => exact ⟨_, _, hread, rfl⟩
  · exact ⟨_, .text e.message, hread, rfl⟩

/-- What is parsed has an outline, and is lowered to a grammar that is dumped. -/
theorem exists_outputs_of_parse {text : List Char} {tree : Tree}
    (hparse : Document.parseChars text = .ok tree) :
    (∃ outline, tree.outline? Tree.standardIndent = some outline) ∧
      ∃ fields, (fieldsOf tree : Except Problem (List Value)) = .ok fields ∧
        ∀ json, ∃ output, grammarText json fields = .ok output := by
  have htext : Document.parse (String.ofList text) = .ok tree := by
    rw [Document.parse, String.toList_ofList, hparse]
  obtain ⟨_, d, -, -, htree⟩ := Surface.exists_derivation_of_parse htext
  obtain ⟨v, hlower, hast⟩ := Lowering.lower_isAst htext
  obtain ⟨w, hgrammar, hfields⟩ := Lowering.lower_wellFormed htext
  obtain rfl : v = w := Except.ok.inj (hlower.symm.trans hgrammar)
  refine ⟨?_, ?_⟩
  · rw [← htree]
    exact d.prints.keyed.exists_outline _
  · cases hfields with
    | @intro fields _ =>
        refine ⟨fields, by rw [fieldsOf, hlower], fun json => ?_⟩
        unfold grammarText
        split
        · obtain ⟨output, hdump, -⟩ := Value.exists_dump hast
          exact ⟨output, hdump⟩
        · exact ⟨_, rfl⟩

/-- The tree of a file that is accepted is had, with the fields of its grammar. -/
theorem exists_tree_of_accepts (accepted : accepts files file preferences.encoding = true) :
    ∃ text tree fields, Source.load files file preferences.encoding = .ok text ∧
      Document.parseChars text = .ok tree ∧
      ((Loader.ofFiles files).readTree preferences file).result = .ok tree ∧
      (fieldsOf tree : Except Problem (List Value)) = .ok fields ∧
      ∀ json, ∃ output, grammarText json fields = .ok output := by
  obtain ⟨text, hload, tree, hparse⟩ := exists_parse_of_accepts accepted
  obtain ⟨-, fields, hfields, houtput⟩ := exists_outputs_of_parse hparse
  exact ⟨text, tree, fields, hload, hparse,
    Loader.readTree_of_parse (Loader.ofFiles_of_ok hload) hparse, hfields, houtput⟩

/-! ## How a command ends -/

/-- Checking a file tells whether it is accepted. -/
theorem result_checkFile (hfile : Source.hasNul file = false)
    (hencoding : Source.hasNul preferences.encoding = false) :
    ((Loader.ofFiles files).checkFile preferences file).result =
      .ok (accepts files file preferences.encoding) := by
  cases haccepts : accepts files file preferences.encoding with
  | false =>
      obtain ⟨problem, report, hread, hreport⟩ := exists_report_of_not_accepts hfile hencoding haccepts
      rw [Loader.checkFile_of_error (Loader.readFields_of_error hread) hreport]
  | true =>
      obtain ⟨_, tree, fields, -, -, hread, hfields, -⟩ := exists_tree_of_accepts haccepts
      rw [Loader.checkFile_of_ok (Loader.readFields_of_ok hread hfields)]

theorem ending_failWith {ε : Type} {printed : List Line} {problem : Problem ε} {report : Report}
    (h : problem.report = .ok report) :
    (failWith files printed problem).ending = .exit failureCode := by
  rw [failWith, h]

/-- A request for a file that is accepted ends well. -/
theorem ending_run_of_accepts {request : Request} (h : request.ReadsOnly file encodingName)
    (accepted : accepts files file encodingName = true) : (request.run files).ending = .exit 0 := by
  cases request with
  | check paths preferences =>
      obtain ⟨rfl, rfl⟩ := h
      obtain ⟨_, tree, fields, -, -, hread, hfields, -⟩ := exists_tree_of_accepts accepted
      have hcheck := Loader.checkFile_of_ok (Loader.readFields_of_ok hread hfields)
      exact Loader.ending_check_of_checkFile (congrArg Step.result hcheck)
  | ast path json output preferences =>
      obtain ⟨rfl, rfl, rfl⟩ := h
      obtain ⟨_, tree, fields, -, -, hread, hfields, houtput⟩ := exists_tree_of_accepts accepted
      obtain ⟨text, htext⟩ := houtput json
      simp [run, Loader.run, Loader.runAst, Loader.readGrammar_of_ok hread hfields, htext, emit]
  | cst path preferences =>
      obtain ⟨rfl, rfl⟩ := h
      obtain ⟨_, tree, _, -, hparse, hread, -⟩ := exists_tree_of_accepts accepted
      obtain ⟨⟨outline, houtline⟩, -⟩ := exists_outputs_of_parse hparse
      simp [run, Loader.run, Loader.runCst, hread, houtline]

/-- A request for a file that is not accepted ends with a report. -/
theorem ending_run_of_not_accepts {request : Request} (hfile : Source.hasNul file = false)
    (hencoding : Source.hasNul encodingName = false) (h : request.ReadsOnly file encodingName)
    (refused : accepts files file encodingName = false) :
    (request.run files).ending = .exit failureCode := by
  cases request with
  | check paths preferences =>
      obtain ⟨rfl, rfl⟩ := h
      obtain ⟨problem, report, hread, hreport⟩ :=
        exists_report_of_not_accepts hfile hencoding refused
      have hcheck := Loader.checkFile_of_error (Loader.readFields_of_error hread) hreport
      exact Loader.ending_check_of_checkFile (congrArg Step.result hcheck)
  | ast path json output preferences =>
      obtain ⟨rfl, rfl, rfl⟩ := h
      obtain ⟨problem, report, hread, hreport⟩ :=
        exists_report_of_not_accepts hfile hencoding refused
      rw [run, Loader.run, Loader.runAst, Loader.readGrammar_of_error hread]
      exact ending_failWith hreport
  | cst path preferences =>
      obtain ⟨rfl, rfl⟩ := h
      obtain ⟨problem, report, hread, hreport⟩ :=
        exists_report_of_not_accepts hfile hencoding refused
      rw [run, Loader.run, Loader.runCst, hread]
      exact ending_failWith hreport

/-- The exit code of each command tells whether the file is accepted. -/
theorem ending_run {request : Request} (hfile : Source.hasNul file = false)
    (hencoding : Source.hasNul encodingName = false) (h : request.ReadsOnly file encodingName) :
    (request.run files).ending =
      .exit (if accepts files file encodingName then 0 else failureCode) := by
  split
  · next accepted => exact ending_run_of_accepts h accepted
  · next refused =>
      exact ending_run_of_not_accepts hfile hencoding h (Bool.eq_false_iff.mpr refused)

end Request

/-- Every command line that asks for a file to be checked, or for its tree or its grammar to be
printed, ends with an exit code, which tells whether the file is accepted. Lines that name a
command, the file, and perhaps an encoding are such lines. Only `--` names none: by the reading
of command lines that is modelled here, the older one, it is no value even if it is attached. -/
theorem commands_agree (files : Files) {file encodingName : String}
    (hfile : Source.hasNul file = false) (hencoding : Source.hasNul encodingName = false) :
    let ending := Ending.exit (if accepts files file encodingName then 0 else 2)
    (∀ words request, Request.ofCommandLine words = .ok request →
      request.ReadsOnly file encodingName → answer files words = .ok ending) ∧
    ∀ encoding?, encodingOf encoding? = encodingName → encoding? ≠ some "--" →
      (∀ command : CommandName, Word.ofString? command.settings file = some (.operand file)) →
      answer files ("check" :: file :: encodingWords encoding?) = .ok ending ∧
      answer files ("cst" :: file :: encodingWords encoding?) = .ok ending ∧
      ∀ json, answer files ("ast" :: file :: (jsonWords json ++ encodingWords encoding?)) =
        .ok ending := by
  intro ending
  have hall : ∀ words request, Request.ofCommandLine words = .ok request →
      request.ReadsOnly file encodingName → answer files words = .ok ending := by
    intro words request hwords hreads
    rw [answer, hwords]
    exact congrArg Except.ok (Request.ending_run hfile hencoding hreads)
  refine ⟨hall, fun encoding? hname named operand => ⟨?_, ?_, fun json => ?_⟩⟩
  · exact hall _ _ (Request.ofCommandLine_check (operand .check) named) ⟨rfl, hname⟩
  · exact hall _ _ (Request.ofCommandLine_cst (operand .cst) named) ⟨rfl, hname⟩
  · exact hall _ _ (Request.ofCommandLine_ast (operand .ast) named json) ⟨rfl, rfl, hname⟩

/-- A file `g` with the text `a:b`. -/
def oneSetting : Files := ⟨[(["g"], .file [0x61, 0x3a, 0x62])], []⟩

/-- The file is accepted as it stands, and not in an encoding that takes its bytes in pairs or
that there is none of. -/
theorem commands_agree_oneSetting :
    (answer oneSetting ["check", "g"] = .ok (.exit 0) ∧
      answer oneSetting ["cst", "g"] = .ok (.exit 0) ∧
      answer oneSetting ["ast", "g", "--json"] = .ok (.exit 0)) ∧
    ∀ name ∈ ["utf-16", "none"],
      answer oneSetting ("check" :: "g" :: encodingWords (some name)) = .ok (.exit 2) ∧
      answer oneSetting ("cst" :: "g" :: encodingWords (some name)) = .ok (.exit 2) ∧
      answer oneSetting ("ast" :: "g" :: encodingWords (some name)) = .ok (.exit 2) := by
  have operand : ∀ command : CommandName,
      Word.ofString? command.settings "g" = some (.operand "g") := by
    intro command
    cases command <;> decide
  have haccepted : accepts oneSetting "g" Source.defaultEncoding = true := by decide +kernel
  have hpairs : accepts oneSetting "g" "utf-16" = false := by decide +kernel
  have hunknown : accepts oneSetting "g" "none" = false := by decide +kernel
  refine ⟨?_, ?_⟩
  · obtain ⟨-, hlines⟩ := @commands_agree oneSetting "g" Source.defaultEncoding (by decide) (by decide)
    rw [haccepted] at hlines
    obtain ⟨hcheck, hcst, hast⟩ := hlines none rfl (by decide) operand
    exact ⟨hcheck, hcst, hast true⟩
  · rw [List.forall_mem_cons, List.forall_mem_singleton]
    refine ⟨?_, ?_⟩
    · obtain ⟨-, hlines⟩ := @commands_agree oneSetting "g" "utf-16" (by decide) (by decide)
      rw [hpairs] at hlines
      obtain ⟨hcheck, hcst, hast⟩ := hlines (some "utf-16") rfl (by decide) operand
      exact ⟨hcheck, hcst, hast false⟩
    · obtain ⟨-, hlines⟩ := @commands_agree oneSetting "g" "none" (by decide) (by decide)
      rw [hunknown] at hlines
      obtain ⟨hcheck, hcst, hast⟩ := hlines (some "none") rfl (by decide) operand
      exact ⟨hcheck, hcst, hast false⟩

end Rulebook.Command
