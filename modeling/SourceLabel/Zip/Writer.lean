import SourceLabel.Zip.EndRecord
import SourceLabel.Zip.Entry

/-!
# Writing archives

A writer takes entries one after another, each with a header that says all about it but where it will
lie. `copy` takes a payload as it is, `add` packs contents anew and sets checksum and sizes. `finish`
writes the directory and the end record. Whatever would need wider numbers is refused.
-/
namespace SourceLabel.Zip

/-- What a writer has been given so far. -/
structure Tally where
  files : Nat := 0
  directories : Nat := 0
  /-- Entries that were handed over for packing. -/
  recompressed : Nat := 0
  /-- The sizes of all contents. -/
  totalSize : Nat := 0
deriving DecidableEq, Repr

def Tally.count (t : Tally) (e : Entry) : Tally :=
  if e.isDirectory then
    { t with directories := t.directories + 1, totalSize := t.totalSize + e.size.toNat }
  else { t with files := t.files + 1, totalSize := t.totalSize + e.size.toNat }

structure Writer where
  level : Deflate.Level := .standard
  comment : Bytes := []
  /-- The bytes of the archive so far. -/
  sink : Array UInt8 := #[]
  /-- The entries in the sink, and where their local headers start. -/
  central : Array (Entry × UInt32) := #[]
  tally : Tally := {}
deriving DecidableEq, Repr

structure Finished where
  bytes : Bytes
  entries : Nat
  size : Nat
  tally : Tally
deriving DecidableEq, Repr

namespace Writer

/-- One less than the count that stands for a larger one. -/
def maxEntries : Nat := 65534

def maxFieldLength : Nat := 65535

/-- A number as a field of 32 bits. -/
def fit32 (n : Nat) : Except Error UInt32 :=
  if n < 4294967296 then .ok (UInt32.ofNat n) else .error (.unsupportedFeature .zip64)

/-- Do the parts of the headers that have no fixed length fit in? -/
def fits (e : Entry) : Bool :=
  e.rawName.length ≤ maxFieldLength && e.localExtra.length ≤ maxFieldLength &&
    e.extra.length ≤ maxFieldLength && e.comment.length ≤ maxFieldLength

/-- Why an entry cannot come next, or else where its local header goes. -/
def place (w : Writer) (e : Entry) : Except Error UInt32 := do
  if maxEntries ≤ w.central.size then
    throw (.unsupportedFeature .zip64)
  let offset ← fit32 w.sink.size
  if fits e then return offset
  else throw (.invalidFormat (.fieldTooLong e.name.text))

def append (w : Writer) (e : Entry) (offset : UInt32) (payload : Bytes) : Writer :=
  { w with
    sink := w.sink ++ e.localHeader ++ payload
    central := w.central.push (e, offset)
    tally := w.tally.count e }

/-- Appends an entry, or leaves the writer as it is. -/
def put (w : Writer) (e : Entry) (payload : Bytes) : Except Error Unit × Writer :=
  match w.place e with
  | .error fault => (.error fault, w)
  | .ok offset => (.ok (), w.append e offset payload)

/-- Appends an entry with the payload that its header describes. -/
def copy (w : Writer) (e : Entry) (payload : Bytes) : Except Error Unit × Writer :=
  if payload.length = e.packedSize.toNat then w.put e payload
  else
    (.error (.invalidFormat (.wrongPayloadSize e.name.text payload.length e.packedSize.toNat)), w)

/-- The header of an entry with new contents, and the payload that stands for them. -/
def prepare (level : Deflate.Level) (template : Entry) (data : Bytes) : Except Error (Entry × Bytes) := do
  if template.isDirectory && !data.isEmpty then
    throw (.invalidFormat (.directoryWithData template.name.text))
  let payload ← template.method.pack data level template.name.text
  let size ← fit32 data.length
  let packedSize ← fit32 payload.length
  let needed :=
    if template.method = .deflated && template.needed < Entry.version then Entry.version
    else template.needed
  return ({ template with checksum := Checksum.of data, size, packedSize, needed }, payload)

/-- Appends an entry with new contents. It counts as packed even if there is no room for it. -/
def add (w : Writer) (template : Entry) (data : Bytes) : Except Error Unit × Writer :=
  match prepare w.level template data with
  | .error fault => (.error fault, w)
  | .ok (e, payload) =>
    { w with tally.recompressed := w.tally.recompressed + 1 }.put e payload

def directory (w : Writer) : Bytes :=
  w.central.toList.flatMap fun e => e.1.centralHeader e.2

def finish (w : Writer) : Except Error Finished := do
  let directoryOffset ← fit32 w.sink.size
  let directory := w.directory
  let directorySize ← fit32 directory.length
  if maxFieldLength < w.comment.length then
    throw (.invalidFormat (.commentTooLong w.comment.length))
  let record : EndRecord := ⟨UInt16.ofNat w.central.size, directorySize, directoryOffset, w.comment⟩
  let bytes := w.sink.toList ++ (directory ++ record.toBytes)
  return ⟨bytes, w.central.size, bytes.length, w.tally⟩

end Writer
end SourceLabel.Zip
