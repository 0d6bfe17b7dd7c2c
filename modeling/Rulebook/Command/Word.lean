import Rulebook.Command.Setting

/-! # Words of a command line

A word is an option or an operand. Two hyphens alone separate: no word after
them is an option. A name may be cut short as long as it fits one option only.
A value may be attached to a name by an equals sign and to a letter directly;
letters of options without a value may be run together.
-/

namespace Rulebook.Command

/-- An option as it is written in a word: by its name or its letter, and with what
attached to it. -/
structure Mention where
  setting : Setting
  isLong : Bool
  attached? : Option (List Char)
  deriving Repr, DecidableEq

/-- A word of a command line. An option may be unknown. -/
inductive Word
  | separator
  | operand (text : String)
  | option (mention? : Option Mention)
  deriving Repr, DecidableEq

namespace Word

/-- Whether a word is an option. -/
def isOption : Word → Bool
  | option _ => true
  | _ => false

/-- What is written before the first equals sign, and what after it. -/
def splitEquals : List Char → List Char × Option (List Char)
  | [] => ([], none)
  | c :: rest =>
      if c = '=' then ([], some rest)
      else
        let (name, value?) := splitEquals rest
        (c :: name, value?)

/-- A text of digits, perhaps with a point among them that a digit follows. A
newline at its end does not count. -/
def isNumber (text : List Char) : Bool :=
  let isDigit (c : Char) : Bool := (Text.decimalValue? c).isSome
  let text := if text.getLast? = some '\n' then text.dropLast else text
  match text.dropWhile isDigit with
  | [] => !text.isEmpty
  | '.' :: places => !places.isEmpty && places.all isDigit
  | _ => false

/-- The known options that a word after a hyphen can mean, if it is not the full
spelling of one. -/
def meanings (known : List Setting) (word : List Char) : List Mention :=
  match word with
  | '-' :: '-' :: _ =>
      let (name, value?) := splitEquals word
      (known.filter fun s => name.isPrefixOf ('-' :: '-' :: s.name.toList)).map fun s =>
        ⟨s, true, value?⟩
  | '-' :: c :: rest =>
      (known.filter fun s => s.letter? = some c).map fun s => ⟨s, false, some rest⟩
  | _ => []

/-- The one full spelling in front of an equals sign. -/
def spelled? (known : List Setting) (word : List Char) : Option Mention :=
  let isLong := word.take 2 = ['-', '-']
  match known.find? fun s => s.isSpelled word with
  | some s => some ⟨s, isLong, none⟩
  | none =>
      match splitEquals word with
      | (_, none) => none
      | (name, some value) =>
          (known.find? fun s => s.isSpelled name).map fun s => ⟨s, isLong, some value⟩

/-- The word that a text is, before any separator. There is none if the text
fits more than one option. -/
def ofString? (known : List Setting) (s : String) : Option Word :=
  match s.toList with
  | ['-', '-'] => some separator
  | '-' :: c :: rest =>
      let word := '-' :: c :: rest
      match spelled? known word with
      | some m => some (option (some m))
      | none =>
          match meanings known word with
          | [m] => some (option (some m))
          | _ :: _ :: _ => none
          | [] =>
              if isNumber (c :: rest) || word.contains ' ' then some (operand s)
              else some (option none)
  | _ => some (operand s)

/-- The words of a command line. -/
def ofStrings? (known : List Setting) : List String → Option (List Word)
  | [] => some []
  | s :: rest =>
      match ofString? known s with
      | none => none
      | some separator => some (separator :: rest.map operand)
      | some w => (ofStrings? known rest).map (w :: ·)

end Word

end Rulebook.Command
