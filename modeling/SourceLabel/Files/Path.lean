import SourceLabel.Text.Suffix

/-!
# File paths

A path is a text with slashes. The pieces between them are what a file system follows. What a path says
about names is read off without following it: pieces that are empty or a single dot count for nothing
there, unless they begin the path. Neither a path nor a name in it can be of any length.
-/
namespace SourceLabel.Files

def split : List Char → List (List Char)
  | [] => [[]]
  | c :: cs =>
    match split cs with
    | [] => [[c]]
    | piece :: pieces => if c = '/' then [] :: piece :: pieces else (c :: piece) :: pieces

def pieces (path : String) : List String :=
  (split path.toList).map String.ofList

/-- Counts for nothing in a name. -/
def isBlank (piece : String) : Bool :=
  piece = "" || piece = "."

def names (path : String) : List String :=
  (pieces path).filter (!isBlank ·)

/-- Drops blank pieces from the front, but never the last piece of all. -/
def dropBlank : List String → List String
  | [] => []
  | [piece] => [piece]
  | piece :: rest => if isBlank piece then dropBlank rest else piece :: rest

/-- The last piece that counts, if it is a name. -/
def fileName? (path : String) : Option String :=
  match (names path).reverse with
  | [] => none
  | piece :: _ => if piece = ".." then none else some piece

/-- What a file is called: the whole path if it ends in no name. -/
def fileName (path : String) : String :=
  (fileName? path).getD path

/-- The path of the directory that a file lies in. -/
def parent (path : String) : String :=
  match dropBlank (pieces path).reverse with
  | [] | [_] => "."
  | _ :: rest =>
    match dropBlank rest with
    | [""] => "/"
    | rest => "/".intercalate rest.reverse

def join (directory name : String) : String :=
  if Text.endsWith directory "/" then directory ++ name else directory ++ "/" ++ name

def isAbsolute (path : String) : Bool :=
  path.toList.head? = some '/'

/-- The name of a file from its last dot on. A dot that comes first does not count. -/
def extension (path : String) : String :=
  let name := ((fileName? path).getD "").toList
  if '.' ∈ name.drop 1 then String.ofList ('.' :: Text.afterLast (· = '.') name) else ""

/-! ## Limits -/

def maxName : Nat := 255

def maxPath : Nat := 4095

end SourceLabel.Files
