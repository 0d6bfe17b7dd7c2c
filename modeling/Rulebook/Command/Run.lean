import Rulebook.Command.Report
import Rulebook.Command.Request
import Rulebook.Grammar.Query
import Rulebook.Lowering.Rules
import Rulebook.Tree.Outline

/-! # Running a request

A request prints lines, may change files, and ends with an exit code: zero if
all went well and two if something was reported.
-/

namespace Rulebook.Command

/-- How a command ends. -/
inductive Ending (ε : Type := Empty)
  | exit (code : Nat)
  | interrupted (i : Interruption ε)
  deriving Repr, DecidableEq

/-- What a command has printed, how it ends, and the files that it leaves. -/
structure Outcome (ε : Type := Empty) where
  printed : List Line
  ending : Ending ε
  files : Files
  deriving Repr, DecidableEq

namespace Outcome

variable {ε : Type}

/-- The text on the output. -/
def output (o : Outcome ε) : String := Line.textOf (!·.isForErrors) o.printed

/-- The text among the errors. -/
def errors (o : Outcome ε) : String := Line.textOf Channel.isForErrors o.printed

end Outcome

/-- How the text of a file is had, from its path and the name of an encoding. -/
abbrev Loader (ε : Type := Empty) : Type :=
  (path encodingName : String) → Except (Problem ε) (List Char)

/-- Texts are had from some files, in the encodings of `Encoding.table`. Any other encoding is
unknown to it; what such an encoding may do is left to loaders at large. -/
def Loader.ofFiles (files : Files) : Loader := fun path encodingName =>
  (Source.load files path encodingName).mapError .load

namespace Request

variable {ε : Type}

/-- The exit code of a command that has something reported. -/
def failureCode : Nat := 2

/-- The fields of the grammar that a tree describes. -/
def fieldsOf (tree : Tree) : Except (Problem ε) (List Value) :=
  match Lowering.lower tree with
  | .ok (.grammar fields) => .ok fields
  | .ok _ => .error (.interruption .notAGrammar)
  | .error (.error e) => .error (.lowering e)
  | .error (.shape f) => .error (.interruption (.shape f))

/-- The numbers of tokens and rules in some fields. -/
def counts (fields : List Value) : String :=
  "tokens=" ++ toString (Value.tokens fields).length
    ++ " rules=" ++ toString (Value.rules fields).length

/-- The outcome of checks, from the number of those that failed. -/
def conclude (files : Files) (checks : Step (Interruption ε) Nat) : Outcome ε :=
  match checks.result with
  | .ok failed => ⟨checks.printed, .exit (if failed = 0 then 0 else failureCode), files⟩
  | .error i => ⟨checks.printed, .interrupted i, files⟩

/-- The outcome of a command that fails on its file after some lines. -/
def failWith (files : Files) (printed : List Line) (problem : Problem ε) : Outcome ε :=
  match problem.report with
  | .error i => ⟨printed, .interrupted i, files⟩
  | .ok report => ⟨printed ++ report.lines.map (⟨.error, ·⟩), .exit failureCode, files⟩

/-- Writes a text with a newline to a file, whose directory is made if it is
missing. -/
def writeText (files : Files) (path : Path) (text : String) : Files.Attempt :=
  match files.ensureDirectories path.parent with
  | ⟨made, some e⟩ => ⟨made, some e⟩
  | ⟨made, none⟩ =>
      match made.write path (Charset.encodeUtf8 (text ++ "\n").toList) with
      | .error e => ⟨made, some e⟩
      | .ok written => ⟨written, none⟩

/-- What comes of an output that cannot be the text of a path: its directory is made
first, if that has a path. -/
def refuseOutput (files : Files) (printed : List Line) (path : Path) : Outcome ε :=
  if path.parent.names.any Source.hasNul then ⟨printed, .interrupted .nulCharacter, files⟩
  else match files.ensureDirectories path.parent with
    | ⟨made, some e⟩ => ⟨printed, .interrupted (.file e), made⟩
    | ⟨made, none⟩ => ⟨printed, .interrupted .nulCharacter, made⟩

/-- Prints a text or, if an output is named, writes it there and says so. -/
def emit (files : Files) (preferences : Preferences) (printed : List Line) (output text : String) :
    Outcome ε :=
  if output = "" then ⟨printed ++ [⟨.output, text⟩], .exit 0, files⟩
  else if Source.hasNul output then refuseOutput files printed (.ofString output)
  else
    let path := Path.ofString output
    match writeText files path text with
    | ⟨left, some e⟩ => ⟨printed, .interrupted (.file e), left⟩
    | ⟨left, none⟩ =>
        let progress : Step (Interruption ε) Unit :=
          Step.progress preferences.debug ("[DEBUG] bytes=" ++ toString text.length)
        ⟨printed ++ ⟨.output, "[EMIT] ast -> " ++ path.toString⟩ :: progress.printed, .exit 0, left⟩

/-- The text of a grammar: its data text or its display. -/
def grammarText (json : Bool) (fields : List Value) : Except EncodeFault String :=
  if json then (Value.grammar fields).dump else .ok (Value.grammar fields).display

end Request

namespace Loader

variable {ε : Type}

/-- Reads the tree of a file. -/
def readTree (load : Loader ε) (preferences : Preferences) (path : String) :
    Step (Problem ε) Tree := do
  let text ← Step.ofExcept (load path preferences.encoding)
  Step.progress preferences.debug
    ("[DEBUG] " ++ path ++ ": read " ++ toString text.length ++ " chars")
  let tree ← Step.ofExcept ((Document.parseChars text).mapError .text)
  Step.progress preferences.debug
    ("[DEBUG] " ++ path ++ ": CST ready | fields="
      ++ toString (Children.under (tree.children?.getD []) Role.fields).length)
  return tree

/-! ## Checking -/

/-- Reads the fields of a file, as a check of it does. -/
def readFields (load : Loader ε) (preferences : Preferences) (path : String) :
    Step (Problem ε) (List Value) := do
  let tree ← load.readTree preferences path
  Step.ofExcept (Request.fieldsOf tree)

/-- Checks one file: reads and lowers it and says what came of it. The result
tells whether all went well. -/
def checkFile (load : Loader ε) (preferences : Preferences) (path : String) :
    Step (Interruption ε) Bool :=
  let reading := load.readFields preferences path
  match reading.result with
  | .ok fields =>
      ⟨reading.printed ++ [⟨.output, "[CHECK OK] " ++ path ++ " fields="
        ++ toString fields.length ++ " " ++ Request.counts fields⟩], .ok true⟩
  | .error problem =>
      match problem.report with
      | .error i => ⟨reading.printed, .error i⟩
      | .ok report =>
          ⟨reading.printed ++ (report.linesFor path).map (⟨.error, ·⟩), .ok false⟩

/-- Checks files one after another. The result tells of each whether all went
well. -/
def checkFiles (load : Loader ε) (preferences : Preferences) :
    List String → Step (Interruption ε) (List Bool)
  | [] => return []
  | path :: rest => do
      let passed ← load.checkFile preferences path
      return passed :: (← load.checkFiles preferences rest)

/-- Checks files and counts those that failed. -/
def countFailures (load : Loader ε) (preferences : Preferences) (paths : List String) :
    Step (Interruption ε) Nat := do
  let passed ← load.checkFiles preferences paths
  let failed := passed.count false
  Step.progress preferences.debug
    ("[DEBUG] checked " ++ toString paths.length ++ " file(s), " ++ toString failed ++ " failed")
  return failed

/-! ## Printing one file -/

/-- Reads the grammar of a file. -/
def readGrammar (load : Loader ε) (preferences : Preferences) (path : String) :
    Step (Problem ε) (List Value) := do
  let tree ← load.readTree preferences path
  let fields ← Step.ofExcept (Request.fieldsOf tree)
  Step.progress preferences.debug ("[DEBUG] " ++ path ++ ": AST ready | " ++ Request.counts fields)
  return fields

/-- Prints the grammar of a file, or writes it to another. -/
def runAst (load : Loader ε) (files : Files) (preferences : Preferences) (path : String)
    (json : Bool) (output : String) : Outcome ε :=
  let reading := load.readGrammar preferences path
  match reading.result with
  | .error problem => Request.failWith files reading.printed problem
  | .ok fields =>
      match Request.grammarText json fields with
      | .error f => ⟨reading.printed, .interrupted (.encode f), files⟩
      | .ok text => Request.emit files preferences reading.printed output text

/-- Prints the outline of the tree of a file. -/
def runCst (load : Loader ε) (files : Files) (preferences : Preferences) (path : String) :
    Outcome ε :=
  let reading := load.readTree preferences path
  match reading.result with
  | .error problem => Request.failWith files reading.printed problem
  | .ok tree =>
      match tree.outline? Tree.standardIndent with
      | none => ⟨reading.printed, .interrupted .noOutline, files⟩
      | some outline => ⟨reading.printed ++ [⟨.output, outline⟩], .exit 0, files⟩

/-- Runs a request. Files are read by the loader; only what is written goes to the
files. -/
def run (load : Loader ε) (files : Files) : Request → Outcome ε
  | .check paths preferences => Request.conclude files (load.countFailures preferences paths)
  | .ast path json output preferences => load.runAst files preferences path json output
  | .cst path preferences => load.runCst files preferences path

end Loader

/-- Runs a request on some files. -/
def Request.run (files : Files) (request : Request) : Outcome :=
  (Loader.ofFiles files).run files request

end Rulebook.Command
