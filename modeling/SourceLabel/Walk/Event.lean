import SourceLabel.Container.Plan
import SourceLabel.Zip.Archive

/-!
# What a walk meets

A walk over a file enters containers, meets entries that it does not open, and leaves containers. A file
that is no container is one entry itself.
-/
namespace SourceLabel.Walk

structure Opened where
  path : NestedPath
  key : EntryKey
  kind : Container.Kind
  /-- The header of the entry that the container is; none for the file itself. -/
  header? : Option Zip.Entry := none
  comment : Bytes
deriving DecidableEq, Repr

inductive Payload where
  /-- The contents of a file that is no container. -/
  | plain (data : Bytes)
  /-- The stored payload of an archive entry. -/
  | packed (header : Zip.Entry) (raw : Bytes)
deriving DecidableEq, Repr

/-- What is not opened. -/
structure Leaf where
  path : NestedPath
  key : EntryKey
  payload : Payload
deriving DecidableEq, Repr

namespace Leaf

def header? (l : Leaf) : Option Zip.Entry :=
  match l.payload with
  | .plain _ => none
  | .packed header _ => some header

def isDirectory (l : Leaf) : Bool :=
  match l.header? with
  | none => false
  | some header => header.isDirectory

def classSuffix : String := ".class"

def isClass (l : Leaf) : Bool :=
  !l.isDirectory && Text.endsWith l.path.name classSuffix

/-- The size of the contents as the header gives it. -/
def size (l : Leaf) : Nat :=
  match l.payload with
  | .plain data => data.length
  | .packed header _ => header.size.toNat

/-- The contents, checked against the header. -/
def contents (l : Leaf) : Except Error Bytes :=
  match l.payload with
  | .plain data => .ok data
  | .packed header raw => (header.unpack raw).mapError (Error.inContainer l.path.toString)

end Leaf

inductive Event where
  | enter (container : Opened)
  | leaf (leaf : Leaf)
  | leave (container : Opened)
deriving DecidableEq, Repr

end SourceLabel.Walk
