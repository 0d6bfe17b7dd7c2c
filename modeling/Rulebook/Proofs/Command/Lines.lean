import Mathlib.Data.List.Forall2
import Rulebook.Command.Request

/-! # Plain command lines

The name of a command, a file, and options spelled out: how such a line is read, whatever the
file and the encoding are called.
-/

namespace Rulebook.Command

/-- The words for an encoding. -/
def encodingWords (encoding? : Option String) : List String :=
  (encoding?.map fun name => "--encoding=" ++ name).toList

/-- The words for a data text. -/
def jsonWords (json : Bool) : List String := if json then ["--json"] else []

/-- The name of an encoding behind its option, as a mention. -/
def Mention.ofEncoding (name : String) : Mention := ⟨.encoding, true, some name.toList⟩

namespace Word

theorem spelled?_encoding (command : CommandName) (value : List Char) :
    spelled? command.settings ("--encoding=".toList ++ value) =
      some ⟨.encoding, true, some value⟩ := by
  cases command <;>
    simp [spelled?, CommandName.settings, Setting.isSpelled, Setting.name, Setting.letter?, splitEquals]

theorem ofString?_encoding (command : CommandName) (name : String) :
    ofString? command.settings ("--encoding=" ++ name) =
      some (.option (some (.ofEncoding name))) := by
  have hspelled := spelled?_encoding command name.toList
  unfold ofString?
  rw [String.toList_append]
  simp only [String.reduceToList, List.cons_append, List.nil_append] at hspelled ⊢
  rw [hspelled]
  rfl

theorem ofString?_json :
    ofString? CommandName.ast.settings "--json" = some (.option (some ⟨.json, true, none⟩)) := by
  decide

/-- The options of a line are read word by word. -/
theorem ofStrings?_options {known : List Setting} {words : List String} {mentions : List Mention}
    (h : List.Forall₂ (fun s m => ofString? known s = some (.option (some m))) words mentions) :
    ofStrings? known words = some (mentions.map fun m => .option (some m)) := by
  induction h with
  | nil => rfl
  | cons hword _ ih =>
      rw [ofStrings?, hword]
      simp only [ih]
      rfl

end Word

namespace Arguments

variable {known : List Setting} {many : Bool}

/-- One operand in front of options is taken alone. -/
theorem takeOperands?_options (file : String) (mentions : List Mention) :
    takeOperands? many (.operand file :: mentions.map fun m => .option (some m)) =
      some ([file], mentions.map fun m => .option (some m)) := by
  cases many <;> cases mentions <;> simp [takeOperands?, Word.isOption]

/-- Options with what they give at once are read one after another. -/
theorem readFrom_options (read : Arguments) {mentions : List Mention}
    {given : List (Setting × Option String)}
    (h : List.Forall₂ (fun m g => Spelling.ofMention? known m = some ⟨[g], none⟩ ∧ g.1 ≠ .help)
      mentions given) :
    readFrom known many read (mentions.map fun m => .option (some m)) =
      .ok { read with given := read.given ++ given } := by
  induction h generalizing read with
  | nil => simp [readFrom]
  | cons hmention _ ih =>
      obtain ⟨hmention, hhelp⟩ := hmention
      rw [List.map_cons, readFrom]
      simp [hmention, Spelling.complete?, hhelp, ih]

/-- The arguments of a line with one file and options behind it. -/
theorem read_line {file : String} {words : List String} {mentions : List Mention}
    {given : List (Setting × Option String)}
    (operand : Word.ofString? known file = some (.operand file))
    (hwords : List.Forall₂ (fun s m => Word.ofString? known s = some (.option (some m))) words mentions)
    (hgiven : List.Forall₂
      (fun m g => Spelling.ofMention? known m = some ⟨[g], none⟩ ∧ g.1 ≠ .help) mentions given) :
    read known many (file :: words) = .ok ⟨given, some [file], false⟩ := by
  rw [read, Word.ofStrings?, operand]
  simp only [Word.ofStrings?_options hwords, Option.map_some]
  rw [readFrom]
  · simp only [empty, Option.isSome_none, Bool.false_eq_true, if_false]
    split
    · next hnone =>
        rw [takeOperands?_options] at hnone
        cases hnone
    · next texts left htaken =>
        rw [takeOperands?_options] at htaken
        cases htaken
        exact readFrom_options _ hgiven
  · simp
  · simp

end Arguments

/-! ## Lines of the commands -/

section Lines

variable {file : String} {encoding? : Option String}

/-- The value that an encoding is given as: two hyphens are none. -/
theorem ofMention?_encoding (command : CommandName) {name : String} (h : name ≠ "--") :
    Spelling.ofMention? command.settings (.ofEncoding name) =
      some ⟨[(.encoding, some name)], none⟩ := by
  have hvalue : name.toList ≠ ['-', '-'] := fun heq => h (String.toList_inj.mp heq)
  simp [Spelling.ofMention?, Mention.ofEncoding, Setting.takesValue, Spelling.attachedValue?, hvalue]

/-- What is mentioned for an encoding, or none. -/
def encodingMentions (encoding? : Option String) : List Mention :=
  (encoding?.map Mention.ofEncoding).toList

/-- What is given for an encoding, or none. -/
def encodingGiven (encoding? : Option String) : List (Setting × Option String) :=
  (encoding?.map fun name => (Setting.encoding, some name)).toList

theorem forall₂_encodingWords (command : CommandName) :
    List.Forall₂ (fun s m => Word.ofString? command.settings s = some (.option (some m)))
      (encodingWords encoding?) (encodingMentions encoding?) := by
  cases encoding? with
  | none => exact .nil
  | some name => exact .cons (Word.ofString?_encoding command name) .nil

theorem forall₂_encodingGiven (command : CommandName) (named : encoding? ≠ some "--") :
    List.Forall₂
      (fun m g => Spelling.ofMention? command.settings m = some ⟨[g], none⟩ ∧ g.1 ≠ .help)
      (encodingMentions encoding?) (encodingGiven encoding?) := by
  cases encoding? with
  | none => exact .nil
  | some name =>
      have hname : name ≠ "--" := fun heq => named (congrArg some heq)
      exact .cons ⟨ofMention?_encoding command hname, by simp⟩ .nil

/-- The encoding that files are read in. -/
def encodingOf (encoding? : Option String) : String := encoding?.getD Source.defaultEncoding

namespace Request

/-- A line that begins with the name of a command is read by this command. -/
theorem ofCommandLine_of_read {name : String} {command : CommandName} {words : List String}
    {a : Arguments} (hname : Word.ofString? [.help] name = some (.operand name))
    (hcommand : CommandName.ofString? name = some command)
    (hread : Arguments.read command.settings command.takesMany words = .ok a) :
    ofCommandLine (name :: words) = ofArguments command a := by
  rw [ofCommandLine, hname]
  simp only [hcommand, hread]

theorem ofCommandLine_check
    (operand : Word.ofString? CommandName.check.settings file = some (.operand file))
    (named : encoding? ≠ some "--") :
    ofCommandLine ("check" :: file :: encodingWords encoding?) =
      .ok (.check [file] ⟨false, encodingOf encoding?⟩) := by
  rw [ofCommandLine_of_read (by decide) rfl (Arguments.read_line operand
    (forall₂_encodingWords .check) (forall₂_encodingGiven .check named))]
  cases encoding? <;> rfl

theorem ofCommandLine_cst
    (operand : Word.ofString? CommandName.cst.settings file = some (.operand file))
    (named : encoding? ≠ some "--") :
    ofCommandLine ("cst" :: file :: encodingWords encoding?) =
      .ok (.cst file ⟨false, encodingOf encoding?⟩) := by
  rw [ofCommandLine_of_read (by decide) rfl (Arguments.read_line operand
    (forall₂_encodingWords .cst) (forall₂_encodingGiven .cst named))]
  cases encoding? <;> rfl

theorem ofCommandLine_ast
    (operand : Word.ofString? CommandName.ast.settings file = some (.operand file))
    (named : encoding? ≠ some "--") (json : Bool) :
    ofCommandLine ("ast" :: file :: (jsonWords json ++ encodingWords encoding?)) =
      .ok (.ast file json "" ⟨false, encodingOf encoding?⟩) := by
  have hwords := @forall₂_encodingWords encoding? .ast
  have hgiven := forall₂_encodingGiven .ast named
  cases json with
  | false =>
      rw [jsonWords, if_neg Bool.false_ne_true, List.nil_append,
        ofCommandLine_of_read (by decide) rfl (Arguments.read_line operand hwords hgiven)]
      cases encoding? <;> rfl
  | true =>
      rw [jsonWords, if_pos rfl, List.singleton_append,
        ofCommandLine_of_read (by decide) rfl (Arguments.read_line operand
          (.cons Word.ofString?_json hwords) (.cons ⟨rfl, by simp⟩ hgiven))]
      cases encoding? <;> rfl

end Request

end Lines

end Rulebook.Command
