import Rulebook.Text.Blank
import Rulebook.Text.CaseFold
import Rulebook.Text.WordCharacter

/-! # Patterns

A pattern is built from sets of characters and anchors by sequence, choice and
repetition. Flags change what it means: whether case counts, where anchors hold,
what the dot stands for, and whether classes hold characters of ASCII only.
-/

namespace Rulebook

namespace Pattern

/-- The flags of a pattern. -/
structure Flags where
  ignoreCase : Bool
  multiline : Bool
  dotAll : Bool
  verbose : Bool
  ascii : Bool
  deriving Repr, DecidableEq

/-- The flags that letters stand for. A letter may be repeated, and other
characters stand for nothing. -/
def Flags.ofLetters (letters : List Char) : Flags :=
  ⟨letters.contains 'i', letters.contains 'm', letters.contains 's', letters.contains 'x',
    letters.contains 'A'⟩

/-- Classes of characters. -/
inductive CharClass
  | word
  | digit
  | space
  deriving Repr, DecidableEq

/-- Whether a character is in a class. -/
def CharClass.has (flags : Flags) (c : Char) : CharClass → Bool
  | word => (!flags.ascii || c.toNat < 128) && Text.isWordCharacter c
  | digit => (!flags.ascii || c.toNat < 128) && Text.isDecimalDigit c
  | space =>
      (!flags.ascii || c.toNat < 128) && Text.isBlank c && !(0x1c ≤ c.toNat && c.toNat ≤ 0x1f)

/-- A member of a set: all characters between two, or a class or all but it. -/
inductive Member
  | range (first last : Char)
  | ofClass (c : CharClass) (isNegated : Bool)
  deriving Repr, DecidableEq

/-- Whether a character is among those of a member. -/
def Member.has (flags : Flags) (c : Char) : Member → Bool
  | range first last => first ≤ c && c ≤ last
  | ofClass k isNegated => k.has flags c != isNegated

/-- The characters that count as one with a given character. -/
def variants (flags : Flags) (c : Char) : List Char :=
  if flags.ignoreCase then
    if flags.ascii then [c, c.toLower, c.toUpper]
    else c :: (Text.caseVariants c.toNat).map Char.ofNat
  else [c]

/-- A set of characters: those of its members, or all others. -/
structure CharSet where
  members : List Member
  isNegated : Bool
  deriving Repr, DecidableEq

/-- Whether a set holds a character, or one that counts as one with it. -/
def CharSet.has (flags : Flags) (s : CharSet) (c : Char) : Bool :=
  ((variants flags c).any fun v => s.members.any fun m => m.has flags v) != s.isNegated

/-- The set of one character. -/
def CharSet.single (c : Char) : CharSet := ⟨[.range c c], false⟩

end Pattern

/-- Patterns. A repetition prefers more of its body, or less of it if it is lazy.
What stands in an atomic pattern is matched in the preferred way only. -/
inductive Pattern
  | empty
  | one (set : Pattern.CharSet)
  | dot
  | start
  | stop
  | andThen (first second : Pattern)
  | either (first second : Pattern)
  | many (body : Pattern) (isLazy : Bool)
  | atomic (body : Pattern)
  deriving Repr, DecidableEq

end Rulebook
