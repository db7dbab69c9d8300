import SourceLabel.Error

/-!
# The end record of an archive

An archive ends with a record that says where its directory is. A comment follows the record, and
anything may follow that, so the record has to be looked for from the end. A record whose comment ends
the data exactly is taken before any other; next comes the last one whose comment lies within the data.
-/
namespace SourceLabel.Zip

structure EndRecord where
  count : UInt16
  directorySize : UInt32
  directoryOffset : UInt32
  comment : Bytes := []
deriving DecidableEq, Repr

/-- The fixed part of an end record. -/
structure EndFields where
  disk : UInt16
  directoryDisk : UInt16
  countHere : UInt16
  count : UInt16
  directorySize : UInt32
  directoryOffset : UInt32
  commentLength : UInt16
deriving DecidableEq, Repr

namespace EndFields

def signature : UInt32 := 0x06054b50

def length : Nat := 22

def toBytes (f : EndFields) : Bytes :=
  Bytes.le32 signature ++ (Bytes.le16 f.disk ++ (Bytes.le16 f.directoryDisk ++
    (Bytes.le16 f.countHere ++ (Bytes.le16 f.count ++ (Bytes.le32 f.directorySize ++
    (Bytes.le32 f.directoryOffset ++ Bytes.le16 f.commentLength))))))

/-- The fields with the signature before them, and what follows them. -/
def read? (b : Bytes) : Option (UInt32 × EndFields × Bytes) := do
  let (sign, b) ← Bytes.take32? b
  let (disk, b) ← Bytes.take16? b
  let (directoryDisk, b) ← Bytes.take16? b
  let (countHere, b) ← Bytes.take16? b
  let (count, b) ← Bytes.take16? b
  let (directorySize, b) ← Bytes.take32? b
  let (directoryOffset, b) ← Bytes.take32? b
  let (commentLength, b) ← Bytes.take16? b
  return (sign, ⟨disk, directoryDisk, countHere, count, directorySize, directoryOffset,
    commentLength⟩, b)

def isSplit (f : EndFields) : Bool :=
  f.disk ≠ 0 || f.directoryDisk ≠ 0 || f.countHere ≠ f.count

/-- Does a field say that the number it stands for is too large for it? -/
def isZip64 (f : EndFields) : Bool :=
  f.count = 0xFFFF || f.directorySize = 0xFFFFFFFF || f.directoryOffset = 0xFFFFFFFF

end EndFields

namespace EndRecord

/-- The record and its comment, whose length is written modulo 65536. -/
def toBytes (r : EndRecord) : Bytes :=
  (⟨0, 0, r.count, r.count, r.directorySize, r.directoryOffset,
    UInt16.ofNat r.comment.length⟩ : EndFields).toBytes ++ r.comment

/-- The greatest length of a record with its comment. -/
def maxLength : Nat := EndFields.length + 65535

/-- Where the part of an archive starts in which its record can lie. -/
def tailStart (length : Nat) : Nat := length - min length maxLength

/-! ## Looking for the record -/

/-- The last records seen: one whose comment ends where the data ends, and one whose comment ends before
that. -/
structure Found where
  exact : Option Nat := none
  inside : Option Nat := none
deriving DecidableEq, Repr

/-- Looks at position `pos`, where `b` starts; `left` is the length of `b`. -/
def Found.see (found : Found) (pos left : Nat) (b : Bytes) : Found :=
  if (Bytes.take32? b).map Prod.fst = some EndFields.signature then
    match EndFields.read? b with
    | none => found
    | some (_, f, _) =>
      let stop := EndFields.length + f.commentLength.toNat
      if stop = left then { found with exact := some pos }
      else if stop < left then { found with inside := some pos }
      else found
  else found

/-- Looks at every position from `pos` on. -/
def search (found : Found) (pos left : Nat) : Bytes → Found
  | [] => found
  | x :: b => search (found.see pos left (x :: b)) (pos + 1) (left - 1) b

/-- The position of the record that counts. -/
def position? (tail : Bytes) : Option Nat :=
  let found := search {} 0 tail.length tail
  found.exact <|> found.inside

/-- What stands right before the end record of an archive that needs wider numbers. -/
def locatorSignature : UInt32 := 0x07064b50

def locatorLength : Nat := 20

/-- Do the bytes before `pos` say that the archive needs wider numbers? -/
def hasLocator (tail : Bytes) (pos : Nat) : Bool :=
  locatorLength ≤ pos && Bytes.u32At? tail (pos - locatorLength) == some locatorSignature

def parseAt (tail : Bytes) (pos : Nat) : Except Error EndRecord :=
  match EndFields.read? (tail.drop pos) with
  | none => .error (.invalidFormat .noEndRecord)
  | some (_, f, rest) =>
    if f.isSplit then .error (.unsupportedFeature .splitArchives)
    else if hasLocator tail pos || f.isZip64 then .error (.unsupportedFeature .zip64)
    else .ok ⟨f.count, f.directorySize, f.directoryOffset, rest.take f.commentLength.toNat⟩

/-- The end record in the last bytes of an archive, and its offset in the archive. The first of these
bytes has offset `start`. -/
def find (tail : Bytes) (start : Nat) : Except Error (EndRecord × Nat) := do
  if tail.length < EndFields.length then
    throw (.invalidFormat (.tooShort tail.length))
  match position? tail with
  | none => throw (.invalidFormat .noEndRecord)
  | some pos => do
    let record ← parseAt tail pos
    return (record, start + pos)

end EndRecord
end SourceLabel.Zip
