import SourceLabel.Error
import SourceLabel.Files.Path

/-!
# A store of files

A tree of directories and files. Paths start from one directory of it, the home, or with a slash from the
root. The home and the directories around it always exist. Paths are followed piece by piece as a file
system does it, so each piece but the last must be a directory that exists. To publish a file is to put it
in the place of another at once.
-/
namespace SourceLabel

/-- The names that lead from the root to a file or directory, the innermost first. -/
abbrev Place := List String

inductive Node where
  | directory
  | file (contents : Bytes)
deriving DecidableEq, Repr

structure Files where
  nodes : List (Place × Node) := []
  home : Place := []
deriving DecidableEq, Repr

namespace Files

def node? (f : Files) (p : Place) : Option Node :=
  if p.isSuffixOf f.home then some .directory else f.nodes.lookup p

/-- The contents of the file at a place; nothing if there is no file. -/
def contents (f : Files) (p : Place) : Bytes :=
  match f.node? p with
  | some (.file b) => b
  | _ => []

def set (f : Files) (p : Place) (n : Node) : Files :=
  if (f.nodes.lookup p).isSome then
    { f with nodes := f.nodes.map fun entry => if entry.1 = p then (p, n) else entry }
  else { f with nodes := (p, n) :: f.nodes }

def remove (f : Files) (p : Place) : Files :=
  { f with nodes := f.nodes.filter fun entry => entry.1 ≠ p }

/-! ## Following paths -/

/-- Follows pieces from the directory at `p`. The place that is reached need not exist. -/
def follow (f : Files) : Place → List String → Except IoFault Place
  | p, [] => .ok p
  | p, piece :: rest =>
    match f.node? p with
    | none => .error .noSuchFile
    | some (.file _) => .error .notADirectory
    | some .directory =>
      if isBlank piece then f.follow p rest
      else if piece = ".." then f.follow p.tail rest
      else if maxName < piece.utf8ByteSize then .error .nameTooLong
      else f.follow (piece :: p) rest

/-- Where a path starts from. -/
def base (f : Files) (path : String) : Place :=
  if isAbsolute path then [] else f.home

/-- A path that leads to the same place from the root. -/
def absolute (f : Files) (path : String) : String :=
  if isAbsolute path then path else join ("/" ++ "/".intercalate f.home.reverse) path

/-- The place that a path leads to. -/
@[irreducible] def locate (f : Files) (path : String) : Except IoFault Place :=
  if '\x00' ∈ path.toList then .error .nulInPath
  else if path = "" then .error .noSuchFile
  else if maxPath < path.utf8ByteSize then .error .nameTooLong
  else f.follow (f.base path) (pieces path)

/-- The place of a file that is there to be read. -/
def openFile (f : Files) (path : String) : Except IoFault Place := do
  let p ← f.locate path
  match f.node? p with
  | none => throw .noSuchFile
  | some .directory => throw .isADirectory
  | some (.file _) => return p

/-- Writes a file, if its directory exists. -/
def write (f : Files) (path : String) (b : Bytes) : Except IoFault Files := do
  let p ← f.locate path
  match f.node? p with
  | some .directory => throw .isADirectory
  | _ => return f.set p (.file b)

/-- Makes a directory and all directories that lead to it. -/
def makeDirectories (f : Files) (path : String) : Files :=
  go f (f.base path) (pieces path)
where
  go (f : Files) (p : Place) : List String → Files
    | [] => f
    | piece :: rest =>
      if isBlank piece then go f p rest
      else
        let p := piece :: p
        go (if (f.node? p).isSome then f else f.set p .directory) p rest

/-! ## Temporary files -/

/-- How the names of temporary files begin. -/
def temporaryStem : String := ".sourcefile-fixer-"

/-- What the names of temporary files may be made unique with: the numbers below 1000 in six digits. -/
def temporaryTags : List String :=
  (List.range 1000).map fun n => String.ofList (Nat.toDigits 10 (1000000 + n)).tail

structure Temporary where
  path : String
  place : Place
deriving DecidableEq, Repr

def temporaryPath (f : Files) (directory suffix tag : String) : String :=
  join (f.absolute directory) (temporaryStem ++ tag ++ suffix)

/-- Makes an empty file in a directory. Its name ends with `suffix`, and before that is the first of the
tags that gives a name that is not taken. -/
def createTemporary (f : Files) (directory suffix : String) :
    (tags : List String) → Except IoFault (Temporary × Files)
  | [] => .error .tooManyTemporaryFiles
  | tag :: tags =>
    match f.locate (f.temporaryPath directory suffix tag) with
    | .error fault => .error (.atPath (f.temporaryPath directory suffix tag) fault)
    | .ok place =>
      if (f.node? place).isSome then f.createTemporary directory suffix tags
      else .ok (⟨f.temporaryPath directory suffix tag, place⟩, f.set place (.file []))

/-- Moves the temporary file that contents were kept in to the place of whatever file the path names.
Nothing but a file can be replaced, and only a name can be given to one. -/
def publish (f : Files) (temporary : Temporary) (b : Bytes) (path : String) : Except IoFault Files := do
  if '\x00' ∈ path.toList then throw .invalidArgument
  if path = "" then throw .noSuchFile
  if maxPath < path.utf8ByteSize then throw .nameTooLong
  let all := (pieces path).reverse
  let last := all.dropWhile (· = "")
  match last with
  | [] => throw .busy
  | name :: rest =>
    let directory ← f.follow (f.base path) rest.reverse
    match f.node? directory with
    | none => throw .noSuchFile
    | some (.file _) => throw .notADirectory
    | some .directory =>
      if name = "." ∨ name = ".." then throw .busy
      else if maxName < name.utf8ByteSize then throw .nameTooLong
      else if last.length < all.length then throw .notADirectory
      else
        let p := name :: directory
        if f.node? p = some .directory then throw .isADirectory
        else return (f.remove temporary.place).set p (.file b)

end Files
end SourceLabel
