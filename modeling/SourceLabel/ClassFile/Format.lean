import SourceLabel.ClassFile.ConstantPool

/-!
# Class files

A class file is read without loss: the constant pool is taken apart, and everything else is kept in its
order, the payloads of attributes as bytes. `toBytes` writes it again. Of the meaning only two things are
checked: the class must name itself, and its SourceFile attribute, if it has one, must hold an index.
-/
namespace SourceLabel

namespace ClassFile

/-- A named piece of data. -/
structure Attribute where
  name : Index
  payload : Bytes
deriving DecidableEq, Repr

/-- A field or a method. -/
structure Member where
  access : UInt16
  name : Index
  descriptor : Index
  attributes : List Attribute
deriving DecidableEq, Repr

namespace Attribute

/-- The length of the payload is written modulo 2 ^ 32. -/
def toBytes (a : Attribute) : Bytes :=
  Bytes.be16 a.name ++ (Bytes.be32 (UInt32.ofNat a.payload.length) ++ a.payload)

def read : Reader Attribute := do
  let name ← Reader.u16 "attribute name"
  let length ← Reader.u32 "attribute length"
  let payload ← Reader.bytes "attribute" length.toNat
  return ⟨name, payload⟩

/-- The attributes with their number before them, which is written modulo 65536. -/
def listToBytes (attributes : List Attribute) : Bytes :=
  Bytes.be16 (UInt16.ofNat attributes.length) ++ attributes.flatMap toBytes

def readList : Reader (List Attribute) := do
  let count ← Reader.u16 "attribute count"
  Reader.times count.toNat read

end Attribute

namespace Member

def toBytes (m : Member) : Bytes :=
  Bytes.be16 m.access ++ (Bytes.be16 m.name ++ (Bytes.be16 m.descriptor ++
    Attribute.listToBytes m.attributes))

/-- `what` is a field or a method. -/
def read (what : String) : Reader Member := do
  let access ← Reader.u16 what
  let name ← Reader.u16 what
  let descriptor ← Reader.u16 what
  let attributes ← Attribute.readList
  return ⟨access, name, descriptor, attributes⟩

/-- The members with their number before them, which is written modulo 65536. -/
def listToBytes (members : List Member) : Bytes :=
  Bytes.be16 (UInt16.ofNat members.length) ++ members.flatMap toBytes

def readList (what : String) : Reader (List Member) := do
  let count ← Reader.u16 what
  Reader.times count.toNat (read what)

end Member
end ClassFile

open ClassFile in
structure ClassFile where
  minor : UInt16
  major : UInt16
  pool : ConstantPool
  access : UInt16
  thisClass : Index
  superClass : Index
  interfaces : List Index
  fields : List Member
  methods : List Member
  attributes : List Attribute
  /-- The name of the class when it was read. -/
  name : String
deriving DecidableEq, Repr

namespace ClassFile

def magic : UInt32 := 0xCAFEBABE

/-- The name of the attribute that holds the label. -/
def labelAttributeName : String := "SourceFile"

/-- The attribute that holds the label: the first one of that name. -/
def labelAttribute? (c : ClassFile) : Option Attribute :=
  c.attributes.find? fun a => c.pool.isText a.name labelAttributeName

def read : Reader ClassFile := do
  let sign ← Reader.u32 "magic"
  if sign ≠ magic then
    Reader.failAt 0 (.badMagic sign)
  let minor ← Reader.u16 "minor version"
  let major ← Reader.u16 "major version"
  let pool ← ConstantPool.read
  let access ← Reader.u16 "access flags"
  let thisAt ← Reader.offset
  let thisClass ← Reader.u16 "this_class"
  let superClass ← Reader.u16 "super_class"
  let some name := pool.className? thisClass | Reader.failAt thisAt (.unnamed thisClass)
  let interfaceCount ← Reader.u16 "interface count"
  let interfaces ← Reader.times interfaceCount.toNat (Reader.u16 "interface")
  let fields ← Member.readList "field"
  let methods ← Member.readList "method"
  let attributesAt ← Reader.offset
  let attributes ← Attribute.readList
  let trailing ← get
  if trailing.rest ≠ [] then
    Reader.failAt trailing.offset (.trailing trailing.rest.length)
  let c : ClassFile := ⟨minor, major, pool, access, thisClass, superClass, interfaces, fields,
    methods, attributes, name⟩
  match c.labelAttribute? with
  | none => return c
  | some a =>
    if a.payload.length = 2 then return c
    else Reader.failAt attributesAt (.labelLength a.payload.length)

/-- The class file that the bytes hold. -/
def parse (b : Bytes) : Except ClassError ClassFile :=
  (read ⟨b, 0⟩).map Prod.fst

/-- Numbers of things are written modulo 65536. -/
def toBytes (c : ClassFile) : Bytes :=
  Bytes.be32 magic ++ (Bytes.be16 c.minor ++ (Bytes.be16 c.major ++ (c.pool.toBytes ++
    (Bytes.be16 c.access ++ (Bytes.be16 c.thisClass ++ (Bytes.be16 c.superClass ++
    (Bytes.be16 (UInt16.ofNat c.interfaces.length) ++ (c.interfaces.flatMap Bytes.be16 ++
    (Member.listToBytes c.fields ++ (Member.listToBytes c.methods ++
    Attribute.listToBytes c.attributes))))))))))

/-- The name of the class that this one extends. -/
def superName? (c : ClassFile) : Option String :=
  c.pool.className? c.superClass

end ClassFile
end SourceLabel
