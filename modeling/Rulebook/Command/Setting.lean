import Rulebook.Text.Blank

/-! # Options of a command line

An option is written as a letter after a hyphen or as a name after two. Some
options take a value.
-/

namespace Rulebook.Command

/-- The commands. -/
inductive CommandName
  | check
  | ast
  | cst
  deriving Repr, DecidableEq

/-- The options. -/
inductive Setting
  | help
  | json
  | output
  | debug
  | encoding
  deriving Repr, DecidableEq

namespace Setting

/-- The name of an option. -/
def name : Setting → String
  | help => "help"
  | json => "json"
  | output => "output"
  | debug => "debug"
  | encoding => "encoding"

/-- The letter of an option. -/
def letter? : Setting → Option Char
  | help => some 'h'
  | output => some 'o'
  | debug => some 'D'
  | json | encoding => none

/-- Whether an option takes a value. -/
def takesValue : Setting → Bool
  | output | encoding => true
  | help | json | debug => false

/-- Whether a word is the full spelling of an option. -/
def isSpelled (s : Setting) (word : List Char) : Bool :=
  word == '-' :: '-' :: s.name.toList || s.letter?.any fun c => word == ['-', c]

end Setting

namespace CommandName

/-- The command with a name. -/
def ofString? : String → Option CommandName
  | "check" => some check
  | "ast" => some ast
  | "cst" => some cst
  | _ => none

/-- The options that a command knows. -/
def settings : CommandName → List Setting
  | ast => [.help, .json, .output, .debug, .encoding]
  | check | cst => [.help, .debug, .encoding]

/-- Whether a command takes more than one file. -/
def takesMany : CommandName → Bool
  | check => true
  | ast | cst => false

end CommandName

end Rulebook.Command
