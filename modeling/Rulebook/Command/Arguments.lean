import Rulebook.Command.Word

/-! # Arguments

The words of a command line give settings, with their values, and operands. The
operands of a command stand together: those that come after another option once
operands have been read belong to nothing, and so do unknown options. Help is
given as soon as it is asked for, unless something before it or in the same word
is wrong.

Two hyphens end the options. This is the older way of reading command lines, which
takes them out of the values of an option too: attached to an option they stand for
no value. In the newer way they are a value there like any other text.
-/

namespace Rulebook.Command

/-- Why a command line is not carried out: it asks for help, it cannot be
understood, or it asks for an encoding without naming one. -/
inductive Refusal
  | help
  | misuse
  | noEncoding
  deriving Repr, DecidableEq

/-- The settings that one word gives, with the values that are attached to them.
The last of them may await its value in the next word. -/
structure Spelling where
  given : List (Setting × Option String)
  awaiting? : Option Setting
  deriving Repr, DecidableEq

namespace Spelling

/-- The spelling with one more setting in front, which has no value. -/
def withFlag (s : Setting) (sp : Spelling) : Spelling := { sp with given := (s, none) :: sp.given }

/-- One option that has nothing attached to it. -/
def alone (s : Setting) : Spelling :=
  if s.takesValue then ⟨[], some s⟩ else ⟨[(s, none)], none⟩

/-- The value that an attached text is. The two hyphens that end the options are none, as
in the older way of reading command lines. -/
def attachedValue? (attached : List Char) : Option String :=
  if attached = ['-', '-'] then none else some (String.ofList attached)

/-- A letter with a text attached to it: its value, or the letters of further
options if it takes none. -/
def ofLetter? (known : List Setting) (s : Setting) (attached : List Char) : Option Spelling :=
  if s.takesValue then some ⟨[(s, attachedValue? attached)], none⟩
  else match attached with
    | [] => none
    | c :: rest =>
        match known.find? fun s => s.letter? = some c, rest with
        | none, _ => none
        | some next, [] => some ((alone next).withFlag s)
        | some next, rest => (ofLetter? known next rest).map (withFlag s)
termination_by attached.length

/-- The settings that an option gives as it is written. -/
def ofMention? (known : List Setting) (m : Mention) : Option Spelling :=
  match m.attached? with
  | none => some (alone m.setting)
  | some attached =>
      if !m.isLong then ofLetter? known m.setting attached
      else if m.setting.takesValue then some ⟨[(m.setting, attachedValue? attached)], none⟩
      else none

/-- The settings that an option gives, with the value that it awaits, and the
words that are left. -/
def complete? (sp : Spelling) (rest : List Word) :
    Option (List (Setting × Option String) × { left : List Word // left.length ≤ rest.length }) :=
  match sp.awaiting?, rest with
  | none, rest => some (sp.given, ⟨rest, Nat.le_refl _⟩)
  | some s, .operand value :: left => some (sp.given ++ [(s, some value)], ⟨left, Nat.le_succ _⟩)
  | some _, _ => none

end Spelling

/-- What has been read of a command line. -/
structure Arguments where
  given : List (Setting × Option String)
  operands? : Option (List String)
  hasExtra : Bool
  deriving Repr, DecidableEq

namespace Arguments

/-- Nothing. -/
def empty : Arguments := ⟨[], none, false⟩

/-- The operands at the head of some words, and the words that are left. One
operand may have the separator before or after it; of more, all are taken up to
the next option. -/
def takeOperands? (many : Bool) (words : List Word) : Option (List String × List Word) :=
  let text? : Word → Option String
    | .operand text => some text
    | _ => none
  if many then
    match (words.takeWhile (!·.isOption)).filterMap text? with
    | [] => none
    | texts => some (texts, words.dropWhile (!·.isOption))
  else match words with
    | .separator :: .operand text :: rest => some ([text], rest)
    | .operand text :: .separator :: rest => some ([text], rest)
    | .operand text :: rest => some ([text], rest)
    | _ => none

theorem length_of_takeOperands? {many : Bool} {words left : List Word} {texts : List String}
    (h : takeOperands? many words = some (texts, left)) : left.length < words.length := by
  cases many with
  | false =>
      simp only [takeOperands?, Bool.false_eq_true, if_false] at h
      split at h
      next =>
        simp only [Option.some.injEq, Prod.mk.injEq] at h
        simp only [← h.2, List.length_cons]
        omega
      next =>
        simp only [Option.some.injEq, Prod.mk.injEq] at h
        simp only [← h.2, List.length_cons]
        omega
      next =>
        simp only [Option.some.injEq, Prod.mk.injEq] at h
        rw [← h.2]
        exact Nat.lt_succ_self _
      next => contradiction
  | true =>
      cases words with
      | nil => simp [takeOperands?] at h
      | cons w rest =>
          simp only [takeOperands?, if_true] at h
          cases w with
          | option m => simp [Word.isOption] at h
          | separator | operand =>
              split at h
              next => contradiction
              next =>
                simp only [Option.some.injEq, Prod.mk.injEq] at h
                rw [← h.2]
                simp only [Word.isOption, Bool.not_false, List.dropWhile_cons_of_pos]
                exact Nat.lt_succ_of_le (List.dropWhile_suffix _).length_le

/-- Reads words on top of what has been read. -/
def readFrom (known : List Setting) (many : Bool) (read : Arguments) (words : List Word) :
    Except Refusal Arguments :=
  match words with
  | [] => .ok read
  | .option none :: rest => readFrom known many { read with hasExtra := true } rest
  | .option (some m) :: rest =>
      match Spelling.ofMention? known m with
      | none => .error .misuse
      | some sp =>
          match sp.complete? rest with
          | none => .error .misuse
          | some (given, left) =>
              if given.any (·.1 = .help) then .error .help
              else readFrom known many { read with given := read.given ++ given } left.1
  | w :: rest =>
      if read.operands?.isSome then readFrom known many { read with hasExtra := true } rest
      else match _taken : takeOperands? many (w :: rest) with
        | none => readFrom known many { read with hasExtra := true } rest
        | some (texts, left) => readFrom known many { read with operands? := some texts } left
termination_by words.length
decreasing_by
  · exact Nat.lt_succ_self _
  · exact Nat.lt_succ_of_le left.2
  · exact Nat.lt_succ_self _
  · exact Nat.lt_succ_self _
  · exact length_of_takeOperands? _taken

/-- Reads the words of a command line. -/
def read (known : List Setting) (many : Bool) (words : List String) : Except Refusal Arguments :=
  match Word.ofStrings? known words with
  | none => .error .misuse
  | some words => readFrom known many empty words

/-- Whether an option is given. -/
def has (a : Arguments) (s : Setting) : Bool := a.given.any (·.1 = s)

/-- The value of an option where it is given last. -/
def value? (a : Arguments) (s : Setting) : Option String := (a.given.reverse.find? (·.1 = s)).bind (·.2)

end Arguments

end Rulebook.Command
