import Reflash.Image

/-!
# Files

The files that a command works on: contents by place in one tree of directories.
Paths that do not start with a slash lead on from the working directory. There are no
links.

* `Files.walk`: goes along names, each of which is looked up in a directory.
* `Files.locate`: the place that a path leads to.
* `Files.read`: the contents of a file.
* `Files.write`: replaces or creates a file.
* `Files.list`: what is directly in a directory.
* `Files.at?_set`: setting a file changes the contents at its place only.
-/

namespace Reflash

/-- Why a file or directory could not be used. -/
inductive FileError where
  | notFound
  | isDirectory
  | notDirectory
  /-- A name or a whole path has too many bytes. -/
  | nameTooLong
  /-- The contents are no text. -/
  | invalidText
deriving DecidableEq, Repr

/-- The error in words, with the number that the system has for it. -/
def FileError.message : FileError → String
  | notFound => "No such file or directory (os error 2)"
  | isDirectory => "Is a directory (os error 21)"
  | notDirectory => "Not a directory (os error 20)"
  | nameTooLong => "File name too long (os error 36)"
  | invalidText => "stream did not contain valid UTF-8"

/-- The names on the way from the root of the tree to a file or directory. -/
abbrev Place := List String

/-- Files by their places. A place occurs at most once. -/
structure Files where
  entries : List (Place × Image)
  workingDirectory : Place := []
  /-- Directories that are there even if no file is below them. -/
  directories : List Place := []
deriving Repr, Inhabited

namespace Files

/-- The contents at a place. -/
def at? (fs : Files) (p : Place) : Option Image := fs.entries.lookup p

/-- All that makes its parents directories. -/
def places (fs : Files) : List Place :=
  fs.workingDirectory :: fs.directories ++ fs.entries.map (·.1)

/-- The place is a directory: something is below it, or it is known to be one. -/
def isDirectory (fs : Files) (p : Place) : Bool :=
  p.isEmpty || (fs.at? p).isNone && fs.places.any fun q => p.isPrefixOf q

/-- The greatest number of bytes in the name of a file or directory. -/
def maxNameBytes : Nat := 255

/-- The greatest number of bytes in a path. -/
def maxPathBytes : Nat := 4095

/-- Goes along names from a place on. Each is looked up in a directory that exists, where `.` is
the directory itself and `..` the one around it. -/
def walk (fs : Files) : Place → List String → Except FileError Place
  | p, [] => .ok p
  | p, name :: names =>
    if (fs.at? p).isSome then .error .notDirectory
    else if !fs.isDirectory p then .error .notFound
    else if name = "." then fs.walk p names
    else if name = ".." then fs.walk p.dropLast names
    else if maxNameBytes < name.utf8ByteSize then .error .nameTooLong
    else fs.walk (p ++ [name]) names

/-- The names that lead on along a path. -/
def names (path : String) : List String := (path.splitOn "/").filter (· ≠ "")

/-- The place at which a path starts. -/
def origin (fs : Files) (path : String) : Place :=
  if path.startsWith "/" then [] else fs.workingDirectory

/-- The place that a path leads to. There need not be anything at it, but its directory exists. A
slash at the end asks for a directory. -/
def locate (fs : Files) (path : String) : Except FileError Place := do
  if path.isEmpty then throw .notFound
  if maxPathBytes < path.utf8ByteSize then throw .nameTooLong
  let p ← fs.walk (fs.origin path) (names path)
  if path.endsWith "/" && (fs.at? p).isSome then throw .notDirectory
  pure p

/-- The contents of the file that a path leads to. -/
def read (fs : Files) (path : String) : Except FileError Image := do
  let p ← fs.locate path
  match fs.at? p with
  | some contents => pure contents
  | none => if fs.isDirectory p then throw .isDirectory else throw .notFound

/-- The text in the file that a path leads to. -/
def readText (fs : Files) (path : String) : Except FileError String := do
  let contents ← fs.read path
  match String.fromUTF8? ⟨contents⟩ with
  | some text => pure text
  | none => throw .invalidText

/-- The path leads to a file. -/
def isFilePath (fs : Files) (path : String) : Bool := (fs.read path).isOk

/-- The path leads to a directory. -/
def isDirectoryPath (fs : Files) (path : String) : Bool :=
  match fs.locate path with
  | .ok p => fs.isDirectory p
  | .error _ => false

/-- The path leads to something. -/
def existsPath (fs : Files) (path : String) : Bool := fs.isFilePath path || fs.isDirectoryPath path

/-- The files with these contents at a place. -/
def set (fs : Files) (p : Place) (contents : Image) : Files :=
  if (fs.at? p).isSome then
    { fs with
      entries := fs.entries.map fun (q, old) => if q = p then (q, contents) else (q, old) }
  else { fs with entries := fs.entries ++ [(p, contents)] }

private theorem lookup_map_set {es : List (Place × Image)} {p q : Place} {contents : Image} :
    (es.map fun (r, old) => if r = p then (r, contents) else (r, old)).lookup q =
      (es.lookup q).map fun old => if q = p then contents else old := by
  induction es with
  | nil => rfl
  | cons e es ih =>
    obtain ⟨r, old⟩ := e
    by_cases hq : q = r
    · subst hq
      by_cases hp : q = p <;> simp [hp]
    · have hb : (q == r) = false := by simpa using hq
      by_cases hp : r = p <;> simp [List.lookup_cons, hp, hb, ih]
      · subst hp; simp [hb]

/-- Setting a file changes the contents at its place only. -/
theorem at?_set {fs : Files} {p q : Place} {contents : Image} :
    (fs.set p contents).at? q = if q = p then some contents else fs.at? q := by
  unfold set at?
  split
  case isTrue h =>
    obtain ⟨old, hold⟩ := Option.isSome_iff_exists.1 h
    rw [lookup_map_set]
    by_cases hq : q = p
    · subst hq; simp [hold]
    · simp [hq]
  case isFalse h =>
    have hnone : fs.entries.lookup p = none := Option.not_isSome_iff_eq_none.1 h
    rw [List.lookup_append]
    by_cases hq : q = p
    · subst hq; simp [hnone]
    · have hb : (q == p) = false := by simpa using hq
      simp [hq, List.lookup_cons, hb]

/-- Replaces or creates the file that a path leads to. -/
def write (fs : Files) (path : String) (contents : Image) : Except FileError Files := do
  let p ← fs.locate path
  if fs.isDirectory p || path.endsWith "/" then throw .isDirectory
  pure (fs.set p contents)

/-- The names of the files and directories directly in the directory that a path leads to. -/
def list (fs : Files) (path : String) : Except FileError (List String) := do
  let p ← fs.locate path
  if fs.isDirectory p then
    pure (fs.places.filterMap fun q =>
      if p.isPrefixOf q then (q.drop p.length).head? else none).eraseDups
  else if (fs.at? p).isSome then throw .notDirectory
  else throw .notFound

/-- The part of a file name behind its last dot. A dot in front starts no extension. -/
def extension? (name : String) : Option String :=
  match name.toList.reverse.span (· ≠ '.') with
  | (_, []) | (_, ['.']) => none
  | (extension, _) => some (String.ofList extension.reverse)

end Files

end Reflash
