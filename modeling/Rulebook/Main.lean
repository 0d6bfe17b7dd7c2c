import Rulebook.Command.Run

/-! # The command line

Reads what the files of a request hold, runs the request, prints its lines, and
writes the files that it leaves.
-/

namespace Rulebook.Command

/-- How to use the program. -/
def usage : String :=
  "usage: rulebook check [-D] [--encoding ENCODING] FILE...\n"
    ++ "       rulebook ast [-D] [--encoding ENCODING] [--json] [-o OUTPUT] FILE\n"
    ++ "       rulebook cst [-D] [--encoding ENCODING] FILE"

/-- The text of a place. -/
def placeText (place : Place) : String := "/" ++ String.intercalate "/" place

/-- What there is at a place. -/
def entryAt (place : Place) : IO (Option Entry) := do
  match ← (IO.FS.readBinFile (placeText place)).toBaseIO with
  | .ok bytes => return some (.file bytes.toList)
  | .error (.inappropriateType ..) => return some .directory
  | .error _ => return none

/-- Adds all that names lead past, from a place on. -/
def addAlong (files : Files) (place : Place) (names : List String) : IO Files := do
  match ← entryAt place with
  | none => return files
  | some entry =>
      let files := files.put place entry
      match names with
      | [] => return files
      | name :: rest => addAlong files (Files.next place name) rest

/-- What there is on the way to some paths. -/
def filesAlong (paths : List String) : IO Files := do
  let here := (toString (← IO.FS.realPath ".")).splitOn "/" |>.filter (· ≠ "")
  let mut files : Files := ⟨[], here⟩
  for text in paths do
    let path := Path.ofString text
    if !Source.hasNul text then
      files ← addAlong files (if path.isAbsolute then [] else here) path.names
  return files

/-- Writes what has been put on top of the entries that there were before. -/
def writeChanges (before after : Files) : IO Unit := do
  for (place, entry) in (after.entries.take (after.entries.length - before.entries.length)).reverse do
    match entry with
    | .directory => IO.FS.createDir (placeText place)
    | .file bytes => IO.FS.writeBinFile (placeText place) ⟨bytes.toArray⟩

/-- Runs a request on the files that there are. The result is the exit code. -/
def runOnDisk (request : Request) : IO UInt32 := do
  let files ← filesAlong request.paths
  let outcome := request.run files
  for line in outcome.printed do
    if line.channel.isForErrors then IO.eprintln line.text else IO.println line.text
  writeChanges files outcome.files
  match outcome.ending with
  | .exit code => return code.toUInt32
  | .interrupted i =>
      IO.eprintln i.message
      return 1

end Rulebook.Command

/-- Carries out what the command line asks for. -/
def main (words : List String) : IO UInt32 := do
  match Rulebook.Command.Request.ofCommandLine words with
  | .ok request => Rulebook.Command.runOnDisk request
  | .error .help =>
      IO.println Rulebook.Command.usage
      return 0
  | .error .misuse =>
      IO.eprintln Rulebook.Command.usage
      return 2
  | .error .noEncoding =>
      IO.eprintln "no encoding is named"
      return 1
