import SourceLabel.Error
import SourceLabel.Text.Suffix

/-!
# Names of archive entries

A name is kept as it is written, with forward slashes; one that ends in a slash names a directory. Only
the empty name and names with a NUL character are refused.
-/
namespace SourceLabel.Zip

structure EntryName where
  text : String
  text_ne_empty : text ≠ ""
  nul_notMem : '\x00' ∉ text.toList
deriving DecidableEq, Repr

namespace EntryName

instance : ToString EntryName := ⟨text⟩

def ofString (s : String) : Except NameFault EntryName :=
  if h : s = "" then .error .empty
  else if h' : '\x00' ∈ s.toList then .error (.containsNul s)
  else .ok ⟨s, h, h'⟩

def isSlash (c : Char) : Bool := c = '/'

def isDirectory (n : EntryName) : Bool :=
  Text.endsWith n.text "/"

def trimmed (n : EntryName) : List Char :=
  Text.trimEnd isSlash n.text.toList

def fileName (n : EntryName) : String :=
  String.ofList (Text.afterLast isSlash n.trimmed)

/-- Everything before the last segment, without the slash between them. -/
def parent? (n : EntryName) : Option String :=
  if '/' ∈ n.trimmed then some (String.ofList (Text.throughLast isSlash n.trimmed).dropLast) else none

/-- What follows the last dot of the last segment. A dot that comes first begins no extension. -/
def extension? (n : EntryName) : Option String :=
  let name := n.fileName.toList
  if '.' ∈ name.drop 1 then some (String.ofList (Text.afterLast (· = '.') name)) else none

end EntryName
end SourceLabel.Zip
