import SourceLabel.Bytes
import SourceLabel.ClassFile.Error

/-!
# Reading class files

A reader takes what it reads off the front of the bytes that are left, or fails at the offset where the
field starts that is not all there.
-/
namespace SourceLabel.ClassFile

/-- The bytes that are left, and how many were read before them. -/
structure Cursor where
  rest : Bytes
  offset : Nat := 0
deriving DecidableEq, Repr

abbrev Reader := StateT Cursor (Except ClassError)

namespace Reader

def failAt (offset : Nat) (fault : ClassFault) : Reader α :=
  throw ⟨offset, fault⟩

def offset : Reader Nat :=
  fun c => .ok (c.offset, c)

/-- The failure to read `need` bytes for the field `what`. -/
def truncated (what : String) (need : Nat) (c : Cursor) : Except ClassError α :=
  .error ⟨c.offset, .truncated what need c.rest.length⟩

def bytes (what : String) (length : Nat) : Reader Bytes := fun c =>
  match Bytes.takeExact? length c.rest with
  | some (front, rest) => .ok (front, ⟨rest, c.offset + length⟩)
  | none => truncated what length c

def u8 (what : String) : Reader UInt8 := fun c =>
  match c.rest with
  | a :: rest => .ok (a, ⟨rest, c.offset + 1⟩)
  | _ => truncated what 1 c

def u16 (what : String) : Reader UInt16 := fun c =>
  match c.rest with
  | a :: b :: rest => .ok (Bytes.ofBE16 a b, ⟨rest, c.offset + 2⟩)
  | _ => truncated what 2 c

def u32 (what : String) : Reader UInt32 := fun c =>
  match c.rest with
  | a :: b :: d :: e :: rest => .ok (Bytes.ofBE32 a b d e, ⟨rest, c.offset + 4⟩)
  | _ => truncated what 4 c

def u64 (what : String) : Reader UInt64 := fun c =>
  match c.rest with
  | a :: b :: d :: e :: f :: g :: h :: i :: rest =>
    .ok (Bytes.ofBE64 (Bytes.ofBE32 a b d e) (Bytes.ofBE32 f g h i), ⟨rest, c.offset + 8⟩)
  | _ => truncated what 8 c

/-- Reads `count` things of one kind; `acc` holds those read before, the last one first. -/
@[specialize] def timesFrom (read : Reader α) (acc : List α) : (count : Nat) → Reader (List α)
  | 0 => fun c => .ok (acc.reverse, c)
  | count + 1 => fun c =>
    match read c with
    | .error e => .error e
    | .ok (x, c) => timesFrom read (x :: acc) count c

@[inline] def times (count : Nat) (read : Reader α) : Reader (List α) :=
  timesFrom read [] count

end Reader
end SourceLabel.ClassFile
