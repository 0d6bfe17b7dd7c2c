import Rulebook.Sequence
import Rulebook.Text.Quoted

/-! # Paths

A path is a sequence of names, from the root or from the working directory.
Slashes that separate nothing and names for "here" are left out; names for
"above" are kept, since what they lead to depends on the files.
-/

namespace Rulebook

/-- A path: what stands in front of its names, and the names. -/
structure Path where
  root : String
  names : List String
  deriving Repr, DecidableEq, Inhabited

namespace Path

/-- The name of the directory above. -/
def above : String := ".."

/-- The root of a path: none, a slash, or two slashes exactly. -/
def rootOf : List Char → String
  | '/' :: '/' :: '/' :: _ => "/"
  | '/' :: '/' :: _ => "//"
  | '/' :: _ => "/"
  | _ => ""

/-- The path that a text spells. -/
def ofString (s : String) : Path :=
  let parts := (Sequence.groups (· = '/') s.toList).map String.ofList
  ⟨rootOf s.toList, parts.filter fun name => name ≠ "" && name ≠ "."⟩

/-- The text of a path; a path without root and names is the place itself. -/
def toString (p : Path) : String :=
  if p.root = "" && p.names.isEmpty then "." else p.root ++ String.intercalate "/" p.names

/-- Whether a path starts at the root. -/
def isAbsolute (p : Path) : Bool := p.root ≠ ""

/-- The path without its last name. -/
def parent (p : Path) : Path := ⟨p.root, p.names.dropLast⟩

end Path

end Rulebook
