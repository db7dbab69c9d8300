import SourceLabel.ClassFile.Label
import SourceLabel.Location
import Std.Data.HashMap

/-!
# The classes of a file

Classes are kept under the key of the entry that they were read from. Names would not do: one file may
hold several classes of one name, and several entries of one name.
-/
namespace SourceLabel

structure PooledClass where
  location : NestedPath
  classFile : ClassFile
  /-- Did the class get another label? -/
  relabelled : Bool
deriving DecidableEq, Repr

structure ClassPool where
  units : Std.HashMap EntryKey PooledClass := ∅

namespace ClassPool

/-- Adds a class, and tells which class it took the place of. -/
def insert (p : ClassPool) (key : EntryKey) (unit : PooledClass) : Option PooledClass × ClassPool :=
  (p.units[key]?, ⟨p.units.insert key unit⟩)

def get? (p : ClassPool) (key : EntryKey) : Option PooledClass :=
  p.units[key]?

def size (p : ClassPool) : Nat :=
  p.units.size

/-- Where the classes of a name were found, in no particular order. -/
def locations (p : ClassPool) (className : String) : List NestedPath :=
  (p.units.values.filter fun unit => unit.classFile.name = className).map PooledClass.location

def relabelledCount (p : ClassPool) : Nat :=
  p.units.values.countP PooledClass.relabelled

end ClassPool
end SourceLabel
