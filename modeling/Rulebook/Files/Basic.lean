import Rulebook.Files.Path

/-! # Files

Directories and files by place. A path leads to a place name by name, and every
place on the way has to be a directory. Reading, writing and making directories
fail with an error that names the path.
-/

namespace Rulebook

/-- A place: the names that lead to it from the root, none of them "above". -/
abbrev Place := List String

/-- What there is at a place. -/
inductive Entry
  | directory
  | file (bytes : List UInt8)
  deriving Repr, DecidableEq

/-- What there is at each place but the root, and the working directory. Of two
entries for one place the first one counts. -/
structure Files where
  entries : List (Place × Entry)
  here : Place
  deriving Repr, DecidableEq

/-- Why a path cannot be used. -/
inductive FileFault
  | notFound
  | alreadyExists
  | notADirectory
  | isADirectory
  deriving Repr, DecidableEq

namespace FileFault

/-- The name of a fault. -/
def name : FileFault → String
  | notFound => "FileNotFoundError"
  | alreadyExists => "FileExistsError"
  | notADirectory => "NotADirectoryError"
  | isADirectory => "IsADirectoryError"

/-- The number of a fault. -/
def number : FileFault → Nat
  | notFound => 2
  | alreadyExists => 17
  | notADirectory => 20
  | isADirectory => 21

/-- What is said about a fault. -/
def text : FileFault → String
  | notFound => "No such file or directory"
  | alreadyExists => "File exists"
  | notADirectory => "Not a directory"
  | isADirectory => "Is a directory"

end FileFault

/-- A fault with the path at which it arose. -/
structure FileError where
  fault : FileFault
  path : Path
  deriving Repr, DecidableEq

/-- The message of an error: number and text of the fault, and the path. -/
def FileError.message (e : FileError) : String :=
  "[Errno " ++ toString e.fault.number ++ "] " ++ e.fault.text ++ ": " ++ e.path.toString.quotedText

namespace Files

/-- What there is at a place. The root is a directory. -/
def find? (files : Files) (place : Place) : Option Entry :=
  if place = [] then some .directory else files.entries.lookup place

/-- The files with another entry at a place. -/
def put (files : Files) (place : Place) (entry : Entry) : Files :=
  { files with entries := (place, entry) :: files.entries }

@[simp] theorem here_put (files : Files) (place : Place) (entry : Entry) :
    (files.put place entry).here = files.here := rfl

theorem find?_put_self (files : Files) {place : Place} (h : place ≠ []) (entry : Entry) :
    (files.put place entry).find? place = some entry := by
  simp [find?, put, h]

theorem find?_put_of_ne (files : Files) {place other : Place} (h : other ≠ place) (entry : Entry) :
    (files.put place entry).find? other = files.find? other := by
  simp [find?, put, List.lookup_cons, beq_false_of_ne h]

/-- The files below a directory, by the names that lead to them from it, and their
bytes. -/
def below (files : Files) (directory : Place) : List (Place × List UInt8) :=
  let places := (files.entries.map Prod.fst).eraseDups
  places.filterMap fun place =>
    if directory.isPrefixOf place then
      match files.find? place with
      | some (.file bytes) => some (place.drop directory.length, bytes)
      | _ => none
    else none

/-- The place to which one name leads. -/
def next (place : Place) (name : String) : Place :=
  if name = Path.above then place.dropLast else place ++ [name]

/-- The place to which names lead. Nothing is asked about the place itself. -/
def walk (files : Files) (place : Place) : List String → Except FileFault Place
  | [] => .ok place
  | name :: rest =>
      match files.find? place with
      | none => .error .notFound
      | some (.file _) => .error .notADirectory
      | some .directory => files.walk (next place name) rest

/-- The place of a path. -/
def place (files : Files) (p : Path) : Except FileError Place :=
  match files.walk (if p.isAbsolute then [] else files.here) p.names with
  | .ok place => .ok place
  | .error fault => .error ⟨fault, p⟩

/-- The bytes of a file. -/
def read (files : Files) (p : Path) : Except FileError (List UInt8) :=
  match files.place p with
  | .error e => .error e
  | .ok place =>
      match files.find? place with
      | none => .error ⟨.notFound, p⟩
      | some .directory => .error ⟨.isADirectory, p⟩
      | some (.file bytes) => .ok bytes

/-- The files after a file is written, or written anew. -/
def write (files : Files) (p : Path) (bytes : List UInt8) : Except FileError Files :=
  match files.place p with
  | .error e => .error e
  | .ok place =>
      match files.find? place with
      | some .directory => .error ⟨.isADirectory, p⟩
      | _ => .ok (files.put place (.file bytes))

/-- Whether a path leads to a directory. -/
def isDirectory (files : Files) (p : Path) : Bool :=
  match files.place p with
  | .error _ => false
  | .ok place => files.find? place = some .directory

/-- The files after a directory is made, where nothing has been. -/
def makeDirectory (files : Files) (p : Path) : Except FileError Files :=
  match files.place p with
  | .error e => .error e
  | .ok place =>
      match files.find? place with
      | some _ => .error ⟨.alreadyExists, p⟩
      | none => .ok (files.put place .directory)

/-- What becomes of an attempt on the files: they may have changed although it
fails. -/
structure Attempt where
  files : Files
  error? : Option FileError

/-- Makes a directory, or leaves the directory that is there. -/
def ensureDirectory (files : Files) (p : Path) : Attempt :=
  match files.makeDirectory p with
  | .ok made => ⟨made, none⟩
  | .error e =>
      if e.fault ≠ .notFound && files.isDirectory p then ⟨files, none⟩ else ⟨files, some e⟩

/-- Makes a directory and the directories above it that are missing, or leaves
what is there. -/
def ensureDirectories (files : Files) (p : Path) : Attempt :=
  match files.makeDirectory p with
  | .ok made => ⟨made, none⟩
  | .error e =>
      if _h : e.fault = .notFound ∧ p.names ≠ [] then
        match files.ensureDirectories p.parent with
        | ⟨made, some e⟩ => ⟨made, some e⟩
        | ⟨made, none⟩ => made.ensureDirectory p
      else files.ensureDirectory p
termination_by p.names.length
decreasing_by
  rw [Path.parent, List.length_dropLast]
  exact Nat.sub_lt (List.length_pos_iff.2 _h.2) Nat.one_pos

end Files

end Rulebook
