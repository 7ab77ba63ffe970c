import Reflash.CommandLine.Run

/-!
# The program

Takes over the files that the arguments name from the file system, runs the program
on them, and stores the files that it changed.
-/

namespace Reflash.CommandLine

/-- The place that a path leads to if no name on it is a link. -/
def directPlace (working : Place) (path : String) : Place :=
  let start := if path.startsWith "/" then [] else working
  (Files.names path).foldl (fun p name =>
    if name = "." then p else if name = ".." then p.dropLast else p ++ [name]) start

/-- The path of a place. -/
def absolutePath (p : Place) : String := "/" ++ String.intercalate "/" p

/-- The path itself, and the paths of all directories on the way to its end. -/
def stations (path : String) : List String :=
  let start := if path.startsWith "/" then "/" else "./"
  let names := Files.names path
  (List.range (names.length + 1)).map fun n => start ++ String.intercalate "/" (names.take n)

/-- Takes over what is at one path: a directory without the files in it, or a file. -/
def takeStation (files : Files) (path : String) : IO Files := do
  let place := directPlace files.workingDirectory path
  let source := (← IO.currentDir) / path
  if ← source.isDir then return { files with directories := place :: files.directories }
  if (files.at? place).isNone && (← source.pathExists) then
    let contents ← IO.FS.readBinFile source
    return { files with entries := files.entries ++ [(place, contents.data)] }
  return files

/-- Takes over what is at a path, with the directories on the way. -/
def takePath (files : Files) (path : String) : IO Files := (stations path).foldlM takeStation files

/-- Takes over a description, or a directory with the descriptions in it. -/
def takeDescriptions (files : Files) (path : String) : IO Files := do
  let files ← takePath files path
  let source := (← IO.currentDir) / path
  if ← source.isDir then
    let names := (← source.readDir).toList.map fun entry => entry.fileName
    let described := names.filter fun name => Files.extension? name = some Database.fileExtension
    (described.map fun name => s!"{path}/{name}").foldlM takePath files
  else return files

/-- Takes over all files that the arguments name. -/
def takeFiles (i : Invocation) : IO Files := do
  let working := Files.names (← IO.currentDir).toString
  let files : Files := { entries := [], workingDirectory := working }
  let described := (i.database.map fun path => [path]).getD defaultDirectories
  let files ← described.foldlM takeDescriptions files
  i.command.paths.foldlM takePath files

/-- Stores the files that are not what they were before. -/
def storeFiles (before after : Files) : IO Unit :=
  after.entries.forM fun (p, contents) => do
    if before.at? p ≠ some contents then IO.FS.writeBinFile (absolutePath p) ⟨contents⟩

/-- Shows the records that are important enough. -/
def showLog (verbosity : Nat) (log : List LogRecord) : IO Unit :=
  log.forM fun r => do
    if (Level.shownAt verbosity).rank ≤ r.level.rank then IO.eprintln r.line

end Reflash.CommandLine

open Reflash Reflash.CommandLine in
/-- Runs the program. -/
def main (args : List String) : IO UInt32 := do
  let (files, verbosity) ←
    match Invocation.ofArguments args with
    | .ok i => pure (← takeFiles i, i.verbosity)
    | .error _ => pure ({ entries := [] }, 0)
  let o := run args files
  storeFiles files o.files
  showLog verbosity o.log
  IO.print o.printed
  if let some f := o.failure then IO.eprintln s!"Error: {f.message}"
  return UInt32.ofNat o.exitCode
