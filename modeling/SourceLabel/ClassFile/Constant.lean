import SourceLabel.ClassFile.Reader

/-!
# Constants

Each constant begins with a tag that says what follows. Numbers are kept as their bits, and texts as the
bytes they are written in; these need not be well-formed.
-/
namespace SourceLabel.ClassFile

/-- A position in the constant pool. -/
abbrev Index := UInt16

inductive Constant where
  | utf8 (text : Bytes)
  | integer (bits : UInt32)
  | float (bits : UInt32)
  | long (bits : UInt64)
  | double (bits : UInt64)
  | classRef (name : Index)
  | string (text : Index)
  | fieldRef (owner nameAndType : Index)
  | methodRef (owner nameAndType : Index)
  | interfaceMethodRef (owner nameAndType : Index)
  | nameAndType (name descriptor : Index)
  | methodHandle (kind : UInt8) (reference : Index)
  | methodType (descriptor : Index)
  | dynamic (bootstrap nameAndType : Index)
  | invokeDynamic (bootstrap nameAndType : Index)
  | module (name : Index)
  | package (name : Index)
deriving DecidableEq, Repr

namespace Constant

def tag : Constant → UInt8
  | .utf8 _ => 1
  | .integer _ => 3
  | .float _ => 4
  | .long _ => 5
  | .double _ => 6
  | .classRef _ => 7
  | .string _ => 8
  | .fieldRef .. => 9
  | .methodRef .. => 10
  | .interfaceMethodRef .. => 11
  | .nameAndType .. => 12
  | .methodHandle .. => 15
  | .methodType _ => 16
  | .dynamic .. => 17
  | .invokeDynamic .. => 18
  | .module _ => 19
  | .package _ => 20

/-- Numbers of 64 bits take two slots of the pool. -/
def isWide : Constant → Bool
  | .long _ | .double _ => true
  | _ => false

/-- What follows the tag. The length of a text is written modulo 65536. -/
def body : Constant → Bytes
  | .utf8 text => Bytes.be16 (UInt16.ofNat text.length) ++ text
  | .integer bits | .float bits => Bytes.be32 bits
  | .long bits | .double bits => Bytes.be64 bits
  | .classRef a | .string a | .methodType a | .module a | .package a => Bytes.be16 a
  | .fieldRef a b | .methodRef a b | .interfaceMethodRef a b | .nameAndType a b
  | .dynamic a b | .invokeDynamic a b => Bytes.be16 a ++ Bytes.be16 b
  | .methodHandle kind a => kind :: Bytes.be16 a

def toBytes (c : Constant) : Bytes :=
  c.tag :: c.body

/-- One index, made into a constant. -/
def readOne (make : Index → Constant) : Reader Constant := do
  let a ← Reader.u16 "constant"
  return make a

/-- Two indices, made into a constant. -/
def readTwo (make : Index → Index → Constant) : Reader Constant := do
  let a ← Reader.u16 "constant"
  let b ← Reader.u16 "constant"
  return make a b

/-- What follows a tag that was read at `start`. -/
def readBody (start : Nat) (tag : UInt8) : Reader Constant := do
  match tag.toNat with
  | 1 =>
    let length ← Reader.u16 "utf8 length"
    let text ← Reader.bytes "utf8 constant" length.toNat
    return .utf8 text
  | 3 => return .integer (← Reader.u32 "constant")
  | 4 => return .float (← Reader.u32 "constant")
  | 5 => return .long (← Reader.u64 "constant")
  | 6 => return .double (← Reader.u64 "constant")
  | 7 => readOne .classRef
  | 8 => readOne .string
  | 9 => readTwo .fieldRef
  | 10 => readTwo .methodRef
  | 11 => readTwo .interfaceMethodRef
  | 12 => readTwo .nameAndType
  | 15 =>
    let kind ← Reader.u8 "constant"
    readOne (.methodHandle kind)
  | 16 => readOne .methodType
  | 17 => readTwo .dynamic
  | 18 => readTwo .invokeDynamic
  | 19 => readOne .module
  | 20 => readOne .package
  | _ => Reader.failAt start (.unknownTag tag)

def read : Reader Constant := do
  let start ← Reader.offset
  let tag ← Reader.u8 "constant tag"
  readBody start tag

end Constant
end SourceLabel.ClassFile
