import Rulebook.Command.Step
import Rulebook.Grammar.Encoding
import Rulebook.Lowering.Error
import Rulebook.Source
import Rulebook.SyntaxError

/-! # Reports

What goes wrong with a file is reported and ends a command with an exit code. A
few things are not reported: they interrupt the command.
-/

namespace Rulebook.Command

/-- Why a command ends without an exit code. What a codec raises beyond what is known
here is of a type of its own, which by default has nothing in it. -/
inductive Interruption (ε : Type := Empty)
  | nulCharacter
  | file (e : FileError)
  | encode (f : EncodeFault)
  | shape (f : ShapeFault)
  | notAGrammar
  | noOutline
  | codec (e : ε)
  deriving Repr, DecidableEq

/-- What is said about an interruption. -/
def Interruption.message : Interruption → String
  | nulCharacter => LoadFailure.nulCharacter.message
  | file e => e.message
  | encode f => f.message?.getD "a name is no text"
  | shape _ => "a tree does not have the shape of a document"
  | notAGrammar => "a document gives no grammar"
  | noOutline => "a tree holds plain data"

/-- What is reported of a problem: an error in the text of a file, an error of
lowering, or that the file or its encoding is not to be had. -/
inductive Report
  | text (message : String)
  | lowering (kind message : String)
  | resource (kind message : String)
  deriving Repr, DecidableEq

/-- What goes wrong with a file. A codec may have a report of its own. -/
inductive Problem (ε : Type := Empty)
  | load (f : LoadFailure)
  | text (e : SyntaxError)
  | lowering (e : LoweringError)
  | reported (r : Report)
  | interruption (i : Interruption ε)

namespace Problem

/-- The report of a problem that is reported. -/
def report {ε : Type} : Problem ε → Except (Interruption ε) Report
  | load .nulCharacter => .error .nulCharacter
  | load (.unknownEncoding name) => .ok (.resource "LookupError" (LoadFailure.unknownEncoding name).message)
  | load (.binaryEncoding name) => .ok (.resource "LookupError" (LoadFailure.binaryEncoding name).message)
  | load (.file e) => .ok (.resource e.fault.name e.message)
  | load (.undecodable e) => .ok (.text e.message)
  | text e => .ok (.text e.message)
  | lowering e => .ok (.lowering e.kind.name e.message)
  | reported r => .ok r
  | interruption i => .error i

end Problem

namespace Report

/-- The lines of a report about the only file of a command. -/
def lines : Report → List String
  | text message => ["[SYNTAX ERROR]", message]
  | lowering kind message => ["[LOWER ERROR] (" ++ kind ++ ")", message]
  | resource kind message => ["[ERROR] " ++ kind ++ " " ++ message]

/-- The lines of a report about one file of several. -/
def linesFor (path : String) : Report → List String
  | text message => ["[SYNTAX ERROR] " ++ path, message]
  | lowering kind message => ["[LOWER ERROR] " ++ path ++ " (" ++ kind ++ ")", message]
  | resource _ message => ["[ERROR] " ++ path ++ ": " ++ message]

end Report

end Rulebook.Command
