import SourceLabel.Zip.EndRecord
import SourceLabel.Zip.Entry

/-!
# Reading archives

To open an archive is to read its directory; payloads are read when they are asked for. They are read
from bytes that are passed in again, since a file may have changed in the meantime. Bytes that have not
changed always suffice: where a local header and its payload may lie is checked against the directory.
-/
namespace SourceLabel.Zip

structure Archive where
  /-- The length of the whole archive. -/
  length : Nat
  directoryOffset : Nat
  entries : Array Entry
  comment : Bytes
deriving DecidableEq, Repr

/-- A payload as it is stored, with the extra field that stands before it. -/
structure RawEntry where
  localExtra : Bytes
  data : Bytes
deriving DecidableEq, Repr

namespace Archive

/-- Reads `left` more headers from `b`, which starts at `offset` of an archive whose directory starts at
`directory`. Payloads lie before the directory. -/
def readDirectory (directory : Nat) : (left offset : Nat) → Bytes → Array Entry →
    Except Error (Array Entry)
  | 0, _, _, entries => .ok entries
  | left + 1, offset, b, entries =>
    match Entry.parse b offset entries.size with
    | .error e => .error e
    | .ok (e, rest) =>
      if directory ≤ e.localOffset.toNat then
        .error (.corruptHeader offset (.offsetIntoDirectory e.name.text))
      else readDirectory directory left (offset + e.centralLength) rest (entries.push e)

def parse (b : Bytes) : Except Error Archive := do
  let length := b.length
  let tailStart := EndRecord.tailStart length
  let (record, recordStart) ← EndRecord.find (b.drop tailStart) tailStart
  let start := record.directoryOffset.toNat
  let stop := start + record.directorySize.toNat
  if recordStart < stop then
    throw (.corruptHeader recordStart (.directoryOverlap start stop))
  let directory := (b.drop start).take record.directorySize.toNat
  let entries ← readDirectory start record.count.toNat start directory #[]
  return ⟨length, start, entries, record.comment⟩

/-- The stored payload of the entry at a position of the directory. -/
def readRaw (a : Archive) (b : Bytes) (index : Nat) : Except Error RawEntry := do
  let some e := a.entries[index]? | throw (.invalidFormat (.noSuchEntry index))
  let start := e.localOffset.toNat
  let b := b.drop start
  if (Bytes.takeExact? LocalFields.length b).isNone then
    throw (.io .shortRead)
  let (f, b) ← LocalFields.parse b start
  let before := LocalFields.length + f.nameLength.toNat + f.extraLength.toNat
  if a.length < start + before + e.packedSize.toNat then
    throw (.corruptHeader start (.payloadPastEnd e.name.text))
  let some (localExtra, b) := Bytes.takeExact? f.extraLength.toNat (b.drop f.nameLength.toNat)
    | throw (.io .shortRead)
  let some (data, _) := Bytes.takeExact? e.packedSize.toNat b | throw (.io .shortRead)
  return ⟨localExtra, data⟩

def read (a : Archive) (b : Bytes) (index : Nat) : Except Error Bytes := do
  let some e := a.entries[index]? | throw (.invalidFormat (.noSuchEntry index))
  let raw ← a.readRaw b index
  e.unpack raw.data

end Archive
end SourceLabel.Zip
