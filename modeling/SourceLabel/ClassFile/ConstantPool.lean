import SourceLabel.ClassFile.Constant
import SourceLabel.Text.Modified

/-!
# The constant pool

Constants are numbered from 1. Slot 0 and the slot after each wide constant stay empty; the count that is
written before the constants counts them too.
-/
namespace SourceLabel.ClassFile

structure ConstantPool where
  slots : Array (Option Constant)
deriving DecidableEq, Repr

namespace ConstantPool

/-- Fills `left` more slots; `blank` says that the next one has to stay empty. -/
def readSlots : (left : Nat) → (blank : Bool) → Array (Option Constant) →
    Reader (Array (Option Constant))
  | 0, _, slots => fun c => .ok (slots, c)
  | left + 1, true, slots => readSlots left false (slots.push none)
  | left + 1, false, slots => fun c =>
    match Constant.read c with
    | .error e => .error e
    | .ok (constant, rest) =>
      if constant.isWide && left == 0 then .error ⟨c.offset, .wideInLastSlot⟩
      else readSlots left constant.isWide (slots.push (some constant)) rest

def read : Reader ConstantPool := do
  let count ← Reader.u16 "constant pool count"
  if count = 0 then
    Reader.failAt (← Reader.offset) .noPoolSlots
  else
    let slots ← readSlots (count.toNat - 1) false #[none]
    return ⟨slots⟩

/-- How many slots there are, the empty ones included. -/
def count (p : ConstantPool) : UInt16 :=
  UInt16.ofNat p.slots.size

/-- The constants in their order. -/
def constants (p : ConstantPool) : List Constant :=
  p.slots.toList.filterMap id

/-- The constants in their order, each with its index. -/
def indexed (p : ConstantPool) : List (Index × Constant) :=
  p.slots.toList.zipIdx.filterMap fun (slot, i) => slot.map fun c => (UInt16.ofNat i, c)

def toBytes (p : ConstantPool) : Bytes :=
  Bytes.be16 p.count ++ p.constants.flatMap Constant.toBytes

/-- The constant at an index, if the slot exists and is not empty. -/
def get? (p : ConstantPool) (i : Index) : Option Constant :=
  (p.slots[i.toNat]?).join

/-- The bytes of the text at an index. -/
def textBytes? (p : ConstantPool) (i : Index) : Option Bytes :=
  match p.get? i with
  | some (.utf8 text) => some text
  | _ => none

/-- The text at an index, if there is one and it is well-formed. -/
def text? (p : ConstantPool) (i : Index) : Option String := do
  let b ← p.textBytes? i
  (Text.Modified.decode b).toOption

/-- The text at an index, with U+FFFD for what is not well-formed. -/
def lossyText? (p : ConstantPool) (i : Index) : Option String :=
  (p.textBytes? i).map Text.Modified.decodeLossy

/-- Is there a text at the index, and is it this one? -/
def isText (p : ConstantPool) (i : Index) (s : String) : Bool :=
  p.textBytes? i == some (Text.Modified.encode s)

/-- The name of the class that the constant at an index refers to. -/
def className? (p : ConstantPool) (i : Index) : Option String :=
  match p.get? i with
  | some (.classRef name) => p.lossyText? name
  | _ => none

/-- The greatest length of an encoded text. -/
def maxTextLength : Nat := 65535

/-- Puts a text in the place of another. Whatever refers to the old text now refers to the new one. -/
def setText (p : ConstantPool) (i : Index) (s : String) : Except ClassFault ConstantPool :=
  let b := Text.Modified.encode s
  if maxTextLength < b.length then .error (.tooLong b.length)
  else
    match p.textBytes? i with
    | none => .error (.notUtf8 i)
    | some _ => .ok ⟨p.slots.setIfInBounds i.toNat (some (.utf8 b))⟩

end ConstantPool
end SourceLabel.ClassFile
