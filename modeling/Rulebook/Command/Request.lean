import Rulebook.Command.Arguments
import Rulebook.Source

/-! # Requests

A request is a command with its files and settings, as a command line asks for
it: options of its own, the name of the command, and the arguments of that.
-/

namespace Rulebook.Command

/-- The settings that all commands share. -/
structure Preferences where
  debug : Bool
  encoding : String
  deriving Repr, DecidableEq

/-- What is asked for: to check files, to print the grammar of a file or to
write it to another, or to print the tree of a file. -/
inductive Request
  | check (paths : List String) (preferences : Preferences)
  | ast (path : String) (json : Bool) (output : String) (preferences : Preferences)
  | cst (path : String) (preferences : Preferences)
  deriving Repr, DecidableEq

namespace Request

/-- The texts of the paths that a request reads or writes. -/
def paths : Request → List String
  | check paths _ => paths
  | ast path _ output _ => if output = "" then [path] else [path, output]
  | cst path _ => [path]

/-- The settings that all commands share, as arguments give them. -/
def preferencesOf (a : Arguments) : Preferences :=
  ⟨a.has .debug, (a.value? .encoding).getD Source.defaultEncoding⟩

/-- The request that the operands of a command make. -/
def ofOperands (command : CommandName) (operands : List String) (a : Arguments) : Except Refusal Request :=
  match command, operands with
  | .check, paths => .ok (check paths (preferencesOf a))
  | .ast, [path] => .ok (ast path (a.has .json) ((a.value? .output).getD "") (preferencesOf a))
  | .cst, [path] => .ok (cst path (preferencesOf a))
  | _, _ => .error .misuse

/-- The request that the arguments of a command make. -/
def ofArguments (command : CommandName) (a : Arguments) : Except Refusal Request :=
  match a.operands? with
  | none => .error .misuse
  | some operands =>
      if a.hasExtra then .error .misuse
      else if a.has .encoding && (a.value? .encoding).isNone then .error .noEncoding
      else ofOperands command operands a

/-- The request that a command line makes. Only help can be asked for in front
of the command; any other option there is a mistake, which counts once the
arguments of the command have been read. -/
def ofCommandLine : List String → Except Refusal Request
  | [] => .error .misuse
  | word :: rest =>
      match Word.ofString? [.help] word with
      | some (.operand name) =>
          match CommandName.ofString? name with
          | none => .error .misuse
          | some command =>
              match Arguments.read command.settings command.takesMany rest with
              | .error r => .error r
              | .ok a => ofArguments command a
      | some (.option none) =>
          match ofCommandLine rest with
          | .error .help => .error .help
          | _ => .error .misuse
      | some (.option (some m)) =>
          match Spelling.ofMention? [.help] m with
          | none => .error .misuse
          | some _ => .error .help
      | some .separator | none => .error .misuse

end Request

end Rulebook.Command
