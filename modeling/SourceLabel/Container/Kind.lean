import SourceLabel.Text.Suffix

/-!
# Kinds of containers

All containers are archives of one format. What kind one is, is told by the end of its name.
-/
namespace SourceLabel.Container

inductive Kind where
  | jar
  | aar
  | zip
deriving DecidableEq, Repr

namespace Kind

/-- All kinds, the innermost first. -/
def all : List Kind := [.jar, .aar, .zip]

def label : Kind → String
  | .jar => "jar"
  | .aar => "aar"
  | .zip => "zip"

instance : ToString Kind := ⟨label⟩

def extension (k : Kind) : String :=
  "." ++ k.label

/-- The kind of the container with this name, if it is one. -/
def ofName? (name : String) : Option Kind :=
  all.find? fun k => Text.endsWith name k.extension

end Kind
end SourceLabel.Container
