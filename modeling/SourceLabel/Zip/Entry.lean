import SourceLabel.Checksum
import SourceLabel.Text.Utf8
import SourceLabel.Zip.EntryName
import SourceLabel.Zip.Method

/-!
# Archive entries

An entry is described twice: in a local header right before its payload, and in the directory at the end
of the archive. The description here is the one of the directory, together with the extra field of the
local header, which may differ.
-/
namespace SourceLabel.Zip

structure Entry where
  name : EntryName
  /-- The name as it is written; it need not be well-formed text. -/
  rawName : Bytes
  madeBy : UInt16 := 20
  needed : UInt16 := 20
  flags : UInt16 := 0
  method : Method
  time : UInt16 := 0
  /-- The first of January 1980 is the earliest date there is. -/
  date : UInt16 := 33
  checksum : UInt32 := 0
  packedSize : UInt32 := 0
  size : UInt32 := 0
  internalAttributes : UInt16 := 0
  externalAttributes : UInt32 := 0
  extra : Bytes := []
  localExtra : Bytes := []
  comment : Bytes := []
  /-- Where the local header starts. -/
  localOffset : UInt32 := 0
  /-- The position in the directory. -/
  index : Nat := 0
deriving DecidableEq, Repr

namespace Entry

def encryptedFlag : UInt16 := 0x0001

/-- Checksum and sizes follow the payload. -/
def descriptorFlag : UInt16 := 0x0008

def utf8Flag : UInt16 := 0x0800

/-- The newest version of the format that is made use of. -/
def version : UInt16 := 20

/-- An entry of which nothing is known but its name and method. -/
def ofName (name : EntryName) (method : Method) : Entry where
  name
  rawName := Text.utf8 name.text
  flags := if name.text.toList.all (·.toNat < 0x80) then 0 else utf8Flag
  method

def isDirectory (e : Entry) : Bool :=
  e.name.isDirectory

/-- The contents that a payload stands for, checked against size and checksum. -/
def unpack (e : Entry) (raw : Bytes) : Except Error Bytes := do
  let data ← e.method.unpack raw e.size.toNat e.name.text
  let actual := Checksum.of data
  if actual = e.checksum then return data
  else throw (.crcMismatch e.name.text e.checksum actual)

end Entry

/-! ## The headers as they are written -/

/-- The fixed part of a local header. -/
structure LocalFields where
  needed : UInt16
  flags : UInt16
  method : UInt16
  time : UInt16
  date : UInt16
  checksum : UInt32
  packedSize : UInt32
  size : UInt32
  nameLength : UInt16
  extraLength : UInt16
deriving DecidableEq, Repr

namespace LocalFields

def signature : UInt32 := 0x04034b50

def length : Nat := 30

def toBytes (f : LocalFields) : Bytes :=
  Bytes.le32 signature ++ (Bytes.le16 f.needed ++ (Bytes.le16 f.flags ++ (Bytes.le16 f.method ++
    (Bytes.le16 f.time ++ (Bytes.le16 f.date ++ (Bytes.le32 f.checksum ++ (Bytes.le32 f.packedSize ++
    (Bytes.le32 f.size ++ (Bytes.le16 f.nameLength ++ Bytes.le16 f.extraLength)))))))))

/-- The fields with the signature before them, and what follows them. -/
def read? (b : Bytes) : Option (UInt32 × LocalFields × Bytes) := do
  let (sign, b) ← Bytes.take32? b
  let (needed, b) ← Bytes.take16? b
  let (flags, b) ← Bytes.take16? b
  let (method, b) ← Bytes.take16? b
  let (time, b) ← Bytes.take16? b
  let (date, b) ← Bytes.take16? b
  let (checksum, b) ← Bytes.take32? b
  let (packedSize, b) ← Bytes.take32? b
  let (size, b) ← Bytes.take32? b
  let (nameLength, b) ← Bytes.take16? b
  let (extraLength, b) ← Bytes.take16? b
  return (sign, ⟨needed, flags, method, time, date, checksum, packedSize, size, nameLength,
    extraLength⟩, b)

/-- The fields of the local header at `offset` of an archive, and what follows them. -/
def parse (b : Bytes) (offset : Nat) : Except Error (LocalFields × Bytes) :=
  match read? b with
  | none => .error (.corruptHeader offset .badLocalSignature)
  | some (sign, f, rest) =>
    if sign = signature then .ok (f, rest) else .error (.corruptHeader offset .badLocalSignature)

end LocalFields

/-- The fixed part of a directory header. -/
structure CentralFields where
  madeBy : UInt16
  needed : UInt16
  flags : UInt16
  method : UInt16
  time : UInt16
  date : UInt16
  checksum : UInt32
  packedSize : UInt32
  size : UInt32
  nameLength : UInt16
  extraLength : UInt16
  commentLength : UInt16
  disk : UInt16
  internalAttributes : UInt16
  externalAttributes : UInt32
  localOffset : UInt32
deriving DecidableEq, Repr

namespace CentralFields

def signature : UInt32 := 0x02014b50

def length : Nat := 46

def toBytes (f : CentralFields) : Bytes :=
  Bytes.le32 signature ++ (Bytes.le16 f.madeBy ++ (Bytes.le16 f.needed ++ (Bytes.le16 f.flags ++
    (Bytes.le16 f.method ++ (Bytes.le16 f.time ++ (Bytes.le16 f.date ++ (Bytes.le32 f.checksum ++
    (Bytes.le32 f.packedSize ++ (Bytes.le32 f.size ++ (Bytes.le16 f.nameLength ++
    (Bytes.le16 f.extraLength ++ (Bytes.le16 f.commentLength ++ (Bytes.le16 f.disk ++
    (Bytes.le16 f.internalAttributes ++ (Bytes.le32 f.externalAttributes ++
    Bytes.le32 f.localOffset)))))))))))))))

def read? (b : Bytes) : Option (UInt32 × CentralFields × Bytes) := do
  let (sign, b) ← Bytes.take32? b
  let (madeBy, b) ← Bytes.take16? b
  let (needed, b) ← Bytes.take16? b
  let (flags, b) ← Bytes.take16? b
  let (method, b) ← Bytes.take16? b
  let (time, b) ← Bytes.take16? b
  let (date, b) ← Bytes.take16? b
  let (checksum, b) ← Bytes.take32? b
  let (packedSize, b) ← Bytes.take32? b
  let (size, b) ← Bytes.take32? b
  let (nameLength, b) ← Bytes.take16? b
  let (extraLength, b) ← Bytes.take16? b
  let (commentLength, b) ← Bytes.take16? b
  let (disk, b) ← Bytes.take16? b
  let (internalAttributes, b) ← Bytes.take16? b
  let (externalAttributes, b) ← Bytes.take32? b
  let (localOffset, b) ← Bytes.take32? b
  return (sign, ⟨madeBy, needed, flags, method, time, date, checksum, packedSize, size, nameLength,
    extraLength, commentLength, disk, internalAttributes, externalAttributes, localOffset⟩, b)

/-- The parts of a directory header that have no fixed length. -/
structure Texts where
  rawName : Bytes
  extra : Bytes
  comment : Bytes
deriving DecidableEq, Repr

/-- Name, extra field and comment, in this order, and what follows them. -/
def texts? (f : CentralFields) (b : Bytes) : Option (Texts × Bytes) := do
  let (rawName, b) ← Bytes.takeExact? f.nameLength.toNat b
  let (extra, b) ← Bytes.takeExact? f.extraLength.toNat b
  let (comment, b) ← Bytes.takeExact? f.commentLength.toNat b
  return (⟨rawName, extra, comment⟩, b)

def isZip64 (f : CentralFields) : Bool :=
  f.packedSize = 0xFFFFFFFF || f.size = 0xFFFFFFFF || f.localOffset = 0xFFFFFFFF

end CentralFields

namespace Entry

/-- Drops the flag that says that sizes follow the payload: they are always written into the header. -/
def writtenFlags (e : Entry) : UInt16 :=
  e.flags &&& ~~~descriptorFlag

def localFields (e : Entry) : LocalFields where
  needed := e.needed
  flags := e.writtenFlags
  method := e.method.id
  time := e.time
  date := e.date
  checksum := e.checksum
  packedSize := e.packedSize
  size := e.size
  nameLength := UInt16.ofNat e.rawName.length
  extraLength := UInt16.ofNat e.localExtra.length

/-- The local header. Lengths are written modulo 65536. -/
def localHeader (e : Entry) : Bytes :=
  e.localFields.toBytes ++ (e.rawName ++ e.localExtra)

def centralFields (e : Entry) (localOffset : UInt32) : CentralFields where
  madeBy := e.madeBy
  needed := e.needed
  flags := e.writtenFlags
  method := e.method.id
  time := e.time
  date := e.date
  checksum := e.checksum
  packedSize := e.packedSize
  size := e.size
  nameLength := UInt16.ofNat e.rawName.length
  extraLength := UInt16.ofNat e.extra.length
  commentLength := UInt16.ofNat e.comment.length
  disk := 0
  internalAttributes := e.internalAttributes
  externalAttributes := e.externalAttributes
  localOffset

/-- The directory header of an entry whose local header starts at `localOffset`. Lengths are written
modulo 65536. -/
def centralHeader (e : Entry) (localOffset : UInt32) : Bytes :=
  (e.centralFields localOffset).toBytes ++ (e.rawName ++ (e.extra ++ e.comment))

/-- The length of the directory header of an entry that was read. -/
def centralLength (e : Entry) : Nat :=
  CentralFields.length + e.rawName.length + e.extra.length + e.comment.length

/-- The entry that a directory header describes. -/
def ofFields (f : CentralFields) (t : CentralFields.Texts) (name : EntryName) (index : Nat) : Entry where
  name
  rawName := t.rawName
  madeBy := f.madeBy
  needed := f.needed
  flags := f.flags
  method := ⟨f.method⟩
  time := f.time
  date := f.date
  checksum := f.checksum
  packedSize := f.packedSize
  size := f.size
  internalAttributes := f.internalAttributes
  externalAttributes := f.externalAttributes
  extra := t.extra
  localExtra := t.extra
  comment := t.comment
  localOffset := f.localOffset
  index

/-- The entry whose directory header comes first in `b`, and what follows the header. The header stands
at `offset` of the archive. -/
def parse (b : Bytes) (offset index : Nat) : Except Error (Entry × Bytes) :=
  match CentralFields.read? b with
  | none => .error (.corruptHeader offset .truncatedCentral)
  | some (sign, f, rest) =>
    if sign ≠ CentralFields.signature then .error (.corruptHeader offset .badCentralSignature)
    else
      match f.texts? rest with
      | none => .error (.corruptHeader offset .centralOverrun)
      | some (t, rest) =>
        if f.isZip64 then .error (.unsupportedFeature .zip64)
        else if f.flags &&& encryptedFlag ≠ 0 then .error (.unsupportedFeature .encryption)
        else
          match EntryName.ofString (Text.ofUtf8Lossy t.rawName) with
          | .error fault => .error (.corruptHeader offset (.badName fault))
          | .ok name => .ok (ofFields f t name index, rest)

end Entry
end SourceLabel.Zip
