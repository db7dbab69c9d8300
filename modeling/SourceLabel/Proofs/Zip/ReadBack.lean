import SourceLabel.Proofs.Zip.Opening
import SourceLabel.Proofs.Zip.Unpacking
import SourceLabel.Proofs.Zip.Written

/-!
# Written archives read back

A finished archive is opened again with an entry for each call on the writer, in the order of the calls.
Each payload is read back as it was written, and contents that were packed are unpacked again.
-/
namespace SourceLabel.Zip

/-! ## The directory -/

/-- Entries with the offsets of their local headers, as a reader numbers them from `first` on. -/
def recordedFrom (first : Nat) (records : List (Entry × UInt32)) : List Entry :=
  (records.zipIdx first).map fun r => r.1.1.recorded r.1.2 r.2

theorem getElem?_recordedFrom {records : List (Entry × UInt32)} {i : Nat} {e : Entry} {offset : UInt32}
    (h : records[i]? = some (e, offset)) : (recordedFrom 0 records)[i]? = some (e.recorded offset i) := by
  rw [recordedFrom, List.getElem?_map, List.getElem?_zipIdx, h, Nat.zero_add]
  rfl

/-- An entry that can be read back from the directory of an archive. -/
structure Readable (directory : Nat) (record : Entry × UInt32) : Prop where
  fits : Writer.fits record.1
  plain : record.1.Plain
  narrow : record.1.Narrow record.2
  before : record.2.toNat < directory

theorem Archive.readDirectory_headers {directory : Nat} {records : List (Entry × UInt32)}
    (h : ∀ record ∈ records, Readable directory record) (offset : Nat) (entries : Array Entry) :
    readDirectory directory records.length offset
      (records.flatMap fun record => record.1.centralHeader record.2) entries =
      .ok (entries ++ recordedFrom entries.size records) := by
  induction records generalizing offset entries with
  | nil => exact congrArg _ Array.appendList_nil.symm
  | cons record records ih =>
    have hr := h record List.mem_cons_self
    have hrest : ∀ record ∈ records, Readable directory record :=
      fun r hm => h r (List.mem_cons_of_mem _ hm)
    have hparse := Entry.parse_centralHeader hr.fits hr.plain hr.narrow
      (records.flatMap fun record => record.1.centralHeader record.2) offset entries.size
    have hbefore : ¬ directory ≤ (record.1.recorded record.2 entries.size).localOffset.toNat :=
      Nat.not_le.mpr hr.before
    rw [List.length_cons, List.flatMap_cons, readDirectory, hparse]
    simp only [if_neg hbefore, ih hrest]
    rw [Array.size_push, recordedFrom, recordedFrom, List.zipIdx_cons, List.map_cons, Array.appendList_cons]

namespace Writer

/-- Where the end record of an archive starts. -/
def recordStart (w : Writer) : Nat :=
  w.sink.size + w.directory.length

/-- Every size and every offset in the archive is less than the number that stands for larger ones. -/
structure Narrow (w : Writer) : Prop where
  directoryOffset : w.sink.size < 0xFFFFFFFF
  directorySize : w.directory.length < 0xFFFFFFFF
  entries : ∀ record ∈ w.central.toList, record.1.Narrow record.2

theorem narrow_iff {w : Writer} : w.Narrow ↔ w.sink.size < 0xFFFFFFFF ∧ w.directory.length < 0xFFFFFFFF ∧
    ∀ record ∈ w.central.toList, record.1.packedSize < 0xFFFFFFFF ∧ record.1.size < 0xFFFFFFFF ∧
      record.2 < 0xFFFFFFFF := by
  constructor
  · intro h
    refine ⟨h.directoryOffset, h.directorySize, fun record hm => ?_⟩
    exact ⟨(h.entries record hm).packedSize, (h.entries record hm).size, (h.entries record hm).localOffset⟩
  · intro ⟨hoffset, hsize, hentries⟩
    refine ⟨hoffset, hsize, fun record hm => ?_⟩
    exact ⟨(hentries record hm).1, (hentries record hm).2.1, (hentries record hm).2.2⟩

instance (w : Writer) : Decidable w.Narrow :=
  decidable_of_iff _ narrow_iff.symm

def endRecord (w : Writer) : EndRecord :=
  ⟨UInt16.ofNat w.central.size, UInt32.ofNat w.directory.length, UInt32.ofNat w.sink.size, w.comment⟩

theorem finish_eq_ok {w : Writer} {done : Finished} (h : w.finish = .ok done) :
    w.comment.length ≤ maxFieldLength ∧
      done.bytes = (w.sink.toList ++ w.directory) ++ w.endRecord.toBytes := by
  simp only [finish] at h
  obtain ⟨offset, hoffset, h₁⟩ := Result.bind_eq_ok.mp h
  obtain ⟨size, hsize, h₂⟩ := Result.bind_eq_ok.mp h₁
  split at h₂
  · exact nomatch h₂
  · next hcomment =>
    have hbytes := congrArg Finished.bytes (Except.ok.inj h₂)
    rw [fit32_eq_ok hoffset, fit32_eq_ok hsize] at hbytes
    refine ⟨Nat.not_lt.mp hcomment, ?_⟩
    rw [List.append_assoc]
    exact hbytes.symm

theorem length_finish {w : Writer} {done : Finished} (h : w.finish = .ok done) :
    done.bytes.length = w.recordStart + (EndFields.length + w.comment.length) := by
  obtain ⟨-, hbytes⟩ := finish_eq_ok h
  have hrecord : w.endRecord.toBytes.length = EndFields.length + w.comment.length := EndRecord.length_toBytes _
  rw [hbytes, List.length_append, List.length_append, hrecord, Array.length_toList]
  rfl

theorem tailStart_le_recordStart {w : Writer} {done : Finished} (h : w.finish = .ok done) :
    EndRecord.tailStart done.bytes.length ≤ w.recordStart := by
  obtain ⟨hcomment, -⟩ := finish_eq_ok h
  have hlength := length_finish h
  have hmax : EndRecord.maxLength = EndFields.length + maxFieldLength := rfl
  rw [EndRecord.tailStart]
  omega

theorem drop_recordStart {w : Writer} {done : Finished} (h : w.finish = .ok done) :
    done.bytes.drop w.recordStart = w.endRecord.toBytes := by
  have hbody : w.recordStart = (w.sink.toList ++ w.directory).length := by
    rw [List.length_append, Array.length_toList]
    rfl
  rw [(finish_eq_ok h).2, hbody, List.drop_left]

theorem endsExactly_after {w : Writer} {done : Finished} (h : w.finish = .ok done) (hcomment : w.comment = [])
    {pos : Nat} (hpos : w.recordStart < pos) : EndRecord.endsExactly (done.bytes.drop pos) = false := by
  have hlength := length_finish h
  rw [hcomment, List.length_nil] at hlength
  apply EndRecord.endsExactly_of_short
  have hfixed : EndFields.length = 22 := rfl
  rw [List.length_drop]
  omega

variable {w : Writer} {items : List (Entry × Bytes)}

theorem image_split {i : Nat} (hi : i < items.length) :
    image items = image (items.take i) ++ (items[i].1.localHeader ++
      (items[i].2 ++ image (items.drop (i + 1)))) := by
  rw [← image_cons, ← image_append, ← List.drop_eq_getElem_cons hi, List.take_append_drop]

theorem Holds.mem_central (h : w.Holds items) {record : Entry × UInt32} (hm : record ∈ w.central.toList) :
    ∃ i, ∃ hi : i < items.length, record.1 = items[i].1 ∧ record.2.toNat = (image (items.take i)).length := by
  obtain ⟨i, hi, hrecord⟩ := List.getElem_of_mem hm
  have hi' : i < items.length := by
    rw [← h.size]
    exact hi
  obtain ⟨offset, hcentral, hoffset⟩ := h.central i hi'
  rw [← Array.getElem?_toList, List.getElem?_eq_getElem hi, hrecord] at hcentral
  obtain rfl := Option.some.inj hcentral
  exact ⟨i, hi', rfl, hoffset⟩

theorem Holds.readable (h : w.Holds items) (hplain : ∀ item ∈ items, item.1.Plain) (hnarrow : w.Narrow) :
    ∀ record ∈ w.central.toList, Readable w.sink.size record := by
  intro record hm
  obtain ⟨i, hi, he, hoffset⟩ := h.mem_central hm
  have hitem := List.getElem_mem hi
  have hsink : w.sink.size = (image items).length := by
    rw [← h.sink, Array.length_toList]
  constructor
  · rw [he]
    exact (h.fits _ hitem).1
  · rw [he]
    exact hplain _ hitem
  · exact hnarrow.entries record hm
  · have hheader := Entry.length_localHeader items[i].1
    have hfixed : LocalFields.length = 30 := rfl
    rw [hoffset, hsink, image_split hi, List.length_append, List.length_append]
    omega

def reopened (w : Writer) : Archive where
  length := w.recordStart + w.endRecord.toBytes.length
  directoryOffset := w.sink.size
  entries := (recordedFrom 0 w.central.toList).toArray
  comment := w.comment

/-- Does a reader see a locator right before the end record? -/
def showsLocator (w : Writer) (done : Finished) : Bool :=
  decide (EndRecord.tailStart done.bytes.length + EndRecord.locatorLength ≤ w.recordStart) &&
    EndRecord.hasLocator done.bytes w.recordStart

/-- A finished archive is opened again unless a locator is seen in it. -/
theorem Holds.parse_finish_eq (h : w.Holds items) (hplain : ∀ item ∈ items, item.1.Plain)
    (hnarrow : w.Narrow) {done : Finished} (hfinish : w.finish = .ok done)
    (hlast : ∀ pos, w.recordStart < pos → EndRecord.endsExactly (done.bytes.drop pos) = false) :
    Archive.parse done.bytes =
      if w.showsLocator done then .error (.unsupportedFeature .zip64) else .ok w.reopened := by
  obtain ⟨hcomment, hbytes⟩ := finish_eq_ok hfinish
  have hmax : maxEntries = 65534 := rfl
  have hcount := h.length_le
  have hsize := hnarrow.directorySize
  have hoffset := hnarrow.directoryOffset
  have hcount' : w.endRecord.count.toNat = w.central.size := by
    rw [endRecord, UInt16.toNat_ofNat', h.size]
    omega
  have hsize' : w.endRecord.directorySize.toNat = w.directory.length := by
    rw [endRecord, UInt32.toNat_ofNat']
    omega
  have hoffset' : w.endRecord.directoryOffset.toNat = w.sink.size := by
    rw [endRecord, UInt32.toNat_ofNat']
    omega
  have hrecord : w.endRecord.Narrow := by
    constructor
    · intro he
      have hc := congrArg UInt16.toNat he
      rw [hcount', h.size] at hc
      have hv : (0xFFFF : UInt16).toNat = 65535 := rfl
      omega
    · rw [UInt32.lt_iff_toNat_lt, hsize']
      exact hsize
    · rw [UInt32.lt_iff_toNat_lt, hoffset']
      exact hoffset
  have hbody : (w.sink.toList ++ w.directory).length = w.recordStart := by
    rw [List.length_append, Array.length_toList]
    rfl
  rw [hbytes, ← hbody] at hlast
  have hfind := EndRecord.find_tail hcomment hrecord hlast
  rw [← hbytes, hbody] at hfind
  have hdirectory : ((done.bytes).drop w.sink.size).take w.directory.length = w.directory := by
    rw [hbytes, List.append_assoc, ← Array.length_toList, List.drop_left, List.take_left]
  have hentries := Archive.readDirectory_headers (h.readable hplain hnarrow) w.sink.size #[]
  have hempty : #[] ++ recordedFrom 0 w.central.toList = w.reopened.entries :=
    Array.ext' Array.toList_appendList
  split
  · next hshows =>
    rw [Archive.parse]
    exact congrArg (· >>= _) (hfind.trans (if_pos hshows))
  · next hshows =>
    apply Archive.parse_eq_ok_iff.mpr
    refine ⟨w.endRecord, w.recordStart, ?_⟩
    constructor
    · exact hfind.trans (if_neg hshows)
    · rw [hoffset', hsize']
      exact Nat.le_refl _
    · rw [hbytes, List.length_append, hbody]
      rfl
    · exact hoffset'.symm
    · rfl
    · rw [hoffset', hsize', hcount', hdirectory]
      rw [Array.length_toList] at hentries
      exact hentries.trans (congrArg _ hempty)

theorem Holds.parse_finish (h : w.Holds items) (hplain : ∀ item ∈ items, item.1.Plain)
    (hnarrow : w.Narrow) {done : Finished} (hfinish : w.finish = .ok done)
    (hlocator : EndRecord.hasLocator done.bytes w.recordStart = false)
    (hlast : ∀ pos, w.recordStart < pos → EndRecord.endsExactly (done.bytes.drop pos) = false) :
    Archive.parse done.bytes = .ok w.reopened := by
  rw [h.parse_finish_eq hplain hnarrow hfinish hlast, showsLocator, hlocator, Bool.and_false]
  rfl

/-! ## Payloads -/

theorem Holds.readRaw (h : w.Holds items) {a : Archive} {rest : Bytes}
    (hlength : a.length = (image items ++ rest).length) {i : Nat} (hi : i < items.length)
    {offset : UInt32} (hoffset : offset.toNat = (image (items.take i)).length) {index position : Nat}
    (hentry : a.entries[position]? = some (items[i].1.recorded offset index)) :
    a.readRaw (image items ++ rest) position = .ok ⟨items[i].1.localExtra, items[i].2⟩ := by
  obtain ⟨hfits, hpacked⟩ := h.fits _ (List.getElem_mem hi)
  obtain ⟨hname, hextra, -, -⟩ := fits_iff.mp hfits
  have hn : items[i].1.localFields.nameLength.toNat = items[i].1.rawName.length := toNat_lengthField hname
  have hx : items[i].1.localFields.extraLength.toNat = items[i].1.localExtra.length :=
    toNat_lengthField hextra
  have hp : (items[i].1.recorded offset index).packedSize.toNat = items[i].2.length := hpacked
  have hdrop : (image items ++ rest).drop offset.toNat = items[i].1.localFields.toBytes ++
      (items[i].1.rawName ++ (items[i].1.localExtra ++
        (items[i].2 ++ (image (items.drop (i + 1)) ++ rest)))) := by
    rw [image_split hi, hoffset, List.append_assoc, List.drop_left, Entry.localHeader]
    simp only [List.append_assoc]
  have hlong : ¬ a.length < offset.toNat + (LocalFields.length + items[i].1.rawName.length +
      items[i].1.localExtra.length) + items[i].2.length := by
    have hheader := Entry.length_localHeader items[i].1
    rw [hlength, image_split hi, hoffset]
    simp only [List.length_append]
    omega
  have hfixed : (Bytes.takeExact? LocalFields.length ((image items ++ rest).drop offset.toNat)).isNone =
      false := by
    rw [hdrop, Bytes.takeExact?_append (LocalFields.length_toBytes _).symm]
    rfl
  have hstart : (items[i].1.recorded offset index).localOffset = offset := rfl
  simp only [Archive.readRaw, hentry, hstart, hfixed, bind, Except.bind, pure, Except.pure,
    Bool.false_eq_true, if_false]
  simp only [hdrop, LocalFields.parse_toBytes, hn, hx, hp, hlong, if_false, List.drop_left,
    Bytes.takeExact?_append rfl]

theorem Holds.reopened_entry (h : w.Holds items) {i : Nat} (hi : i < items.length) :
    ∃ offset, w.reopened.entries[i]? = some (items[i].1.recorded offset i) ∧
      offset.toNat = (image (items.take i)).length := by
  obtain ⟨offset, hcentral, hoffset⟩ := h.central i hi
  refine ⟨offset, ?_, hoffset⟩
  rw [← Array.getElem?_toList] at hcentral
  rw [reopened, List.getElem?_toArray]
  exact getElem?_recordedFrom hcentral

theorem Holds.reopened_readRaw (h : w.Holds items) {done : Finished} (hfinish : w.finish = .ok done) {i : Nat}
    (hi : i < items.length) :
    w.reopened.readRaw done.bytes i = .ok ⟨items[i].1.localExtra, items[i].2⟩ := by
  obtain ⟨-, hbytes⟩ := finish_eq_ok hfinish
  obtain ⟨offset, hentry, hoffset⟩ := h.reopened_entry hi
  have hlength : w.reopened.length = (image items ++ (w.directory ++ w.endRecord.toBytes)).length := by
    rw [reopened, recordStart, ← Array.length_toList, h.sink]
    simp only [List.length_append]
    omega
  rw [hbytes, h.sink, List.append_assoc]
  exact h.readRaw hlength hi hoffset hentry

end Writer

theorem Call.standsFor_payload {level : Deflate.Level} {template : Entry} {data : Bytes}
    (h : template.method.isSupported) :
    template.method.StandsFor ((Call.add template data).payload level) data := by
  by_cases hd : template.method = .deflated
  · rw [payload, if_pos hd]
    exact .inr ⟨hd, Deflate.standsFor_deflate data level⟩
  · rw [payload, if_neg hd]
    exact .inl ⟨(Method.isSupported_iff.mp h).resolve_right hd, rfl⟩

theorem Call.unpack_payload {level : Deflate.Level} {template : Entry} {data : Bytes}
    (h : (Call.add template data).Sized level) (offset : UInt32) (index : Nat) :
    (((Call.add template data).header level).recorded offset index).unpack
      ((Call.add template data).payload level) = .ok data := by
  obtain ⟨hsupported, hsize⟩ := h.added template data rfl
  exact Entry.unpack_eq_ok_iff.mpr ⟨standsFor_payload hsupported, hsize.symm, rfl⟩

/-- What a call comes to in an archive that is opened again, at position `i`. Whoever has packed the payload, the
contents that are read are those that it stands for, if the header gives their size and their checksum. -/
structure Call.Restored (level : Deflate.Level) (call : Call) (a : Archive) (b : Bytes) (i : Nat) : Prop where
  sized : call.Sized level
  entry : ∃ offset, a.entries[i]? = some ((call.header level).recorded offset i)
  raw : a.readRaw b i = .ok ⟨call.given.localExtra, call.payload level⟩
  unpacked : ∀ data, a.read b i = .ok data ↔
    (call.header level).method.StandsFor (call.payload level) data ∧
      data.length = (call.header level).size.toNat ∧ Checksum.of data = (call.header level).checksum
  contents : ∀ template data, call = .add template data → a.read b i = .ok data

theorem Call.plain_header {level : Deflate.Level} {call : Call} (h : call.given.Plain) :
    (call.header level).Plain := by
  cases call with
  | add template data => exact ⟨h.name, h.notEncrypted⟩
  | copy header payload => exact h

theorem Call.localExtra_header (level : Deflate.Level) (call : Call) :
    (call.header level).localExtra = call.given.localExtra := by
  cases call <;> rfl

/-- An archive that was finished after some calls is opened again with its comment and one entry for each
call, in the order of the calls. -/
theorem Taken.reopen_finish {level : Deflate.Level} {comment : Bytes} {calls : List Call} {w : Writer}
    (hcalls : Taken { level, comment } calls w) (hplain : ∀ call ∈ calls, call.given.Plain)
    {done : Finished} (hfinish : w.finish = .ok done) (hnarrow : w.Narrow)
    (hlocator : EndRecord.hasLocator done.bytes w.recordStart = false)
    (hlast : ∀ pos, w.recordStart < pos → EndRecord.endsExactly (done.bytes.drop pos) = false) :
    ∃ a, Archive.parse done.bytes = .ok a ∧ a.comment = comment ∧ a.entries.size = calls.length ∧
      ∀ i (hi : i < calls.length), calls[i].Restored level a done.bytes i := by
  obtain ⟨hholds, hsized, hcomment⟩ := hcalls.holds (Writer.holds_nil level comment)
  rw [List.nil_append] at hholds
  have hlength : (Call.items level calls).length = calls.length := List.length_map _
  have hitems : ∀ item ∈ Call.items level calls, item.1.Plain := by
    intro item hm
    obtain ⟨call, hc, he⟩ := List.mem_map.mp hm
    rw [← he]
    exact Call.plain_header (hplain call hc)
  refine ⟨w.reopened, hholds.parse_finish hitems hnarrow hfinish hlocator hlast, hcomment, ?_, ?_⟩
  · rw [← hlength, ← hholds.size]
    simp [Writer.reopened, recordedFrom]
  · intro i hi
    have hi' : i < (Call.items level calls).length := hlength ▸ hi
    have hcall := hsized calls[i] (List.getElem_mem hi)
    have hitem : (Call.items level calls)[i] = (calls[i].header level, calls[i].payload level) :=
      List.getElem_map _
    obtain ⟨offset, hentry, -⟩ := hholds.reopened_entry hi'
    have hraw := hholds.reopened_readRaw hfinish hi'
    rw [hitem] at hentry
    rw [hitem, Call.localExtra_header] at hraw
    have hread : w.reopened.read done.bytes i =
        ((calls[i].header level).recorded offset i).unpack (calls[i].payload level) := by
      simp only [Archive.read, hentry, hraw, bind, Except.bind]
    refine ⟨hcall, ⟨offset, hentry⟩, hraw, fun data => ?_, fun template data hadd => ?_⟩
    · rw [hread]
      exact Entry.unpack_eq_ok_iff
    · rw [hread, hadd]
      exact Call.unpack_payload (hadd ▸ hcall) offset i

/-- A deflated entry that asks for too old a reader and has its sizes after the payload. -/
def deflatedCall : Call :=
  .add template [0x68, 0x69]
where
  template : Entry :=
    { name := ⟨"a", by decide, by decide⟩
      rawName := [0x61]
      needed := 10
      flags := 0x0808
      method := .deflated
      extra := [1]
      localExtra := [2, 3] }

def copiedCall : Call :=
  .copy header [5]
where
  header : Entry :=
    { name := ⟨"b", by decide, by decide⟩
      rawName := [0x62]
      method := .stored
      packedSize := 1
      size := 1
      comment := [4] }

def mixedStart : Writer where
  level := ⟨0, Nat.zero_le 9⟩
  comment := [0x7a]

def mixedWriter : Writer :=
  (copiedCall.perform (deflatedCall.perform mixedStart).2).2

def mixedArchive : Finished :=
  ⟨(mixedWriter.sink.toList ++ mixedWriter.directory) ++ mixedWriter.endRecord.toBytes, 2, 191,
    mixedWriter.tally⟩

theorem reopen_finish_mixed :
    Taken mixedStart [deflatedCall, copiedCall] mixedWriter ∧
    (∀ call ∈ [deflatedCall, copiedCall], call.given.Plain) ∧ mixedWriter.finish = .ok mixedArchive ∧
    mixedWriter.Narrow ∧
    ∃ a, Archive.parse mixedArchive.bytes = .ok a ∧ a.comment = [0x7a] ∧ a.entries.size = 2 ∧
      ∀ i (hi : i < [deflatedCall, copiedCall].length),
        [deflatedCall, copiedCall][i].Restored mixedStart.level a mixedArchive.bytes i := by
  have hcalls : Taken mixedStart [deflatedCall, copiedCall] mixedWriter :=
    .cons (by cbv) (.cons (by cbv) (.none mixedWriter))
  have hplain : ∀ call ∈ [deflatedCall, copiedCall], call.given.Plain := by
    intro call hm
    simp only [List.mem_cons, List.not_mem_nil, or_false] at hm
    rcases hm with hm | hm
    · rw [hm]
      exact ⟨by decide +kernel, by decide +kernel⟩
    · rw [hm]
      exact ⟨by decide +kernel, by decide +kernel⟩
  have hfinish : mixedWriter.finish = .ok mixedArchive := by cbv
  have hnarrow : mixedWriter.Narrow := by
    have hall : ∀ record ∈ mixedWriter.central.toList, record.1.packedSize < 0xFFFFFFFF ∧
        record.1.size < 0xFFFFFFFF ∧ record.2 < 0xFFFFFFFF := by decide +kernel
    constructor
    · decide +kernel
    · decide +kernel
    · intro record hm
      obtain ⟨hpacked, hsize, hoffset⟩ := hall record hm
      exact ⟨hpacked, hsize, hoffset⟩
  have hlocator : EndRecord.hasLocator mixedArchive.bytes mixedWriter.recordStart = false := by
    decide +kernel
  have hlast : ∀ pos, mixedWriter.recordStart < pos →
      EndRecord.endsExactly (mixedArchive.bytes.drop pos) = false := by
    have hshort : ∀ pos < mixedArchive.bytes.length, mixedWriter.recordStart < pos →
        EndRecord.endsExactly (mixedArchive.bytes.drop pos) = false := by decide +kernel
    intro pos hpos
    rcases Nat.lt_or_ge pos mixedArchive.bytes.length with hlt | hge
    · exact hshort pos hlt hpos
    · rw [List.drop_of_length_le hge]
      rfl
  exact ⟨hcalls, hplain, hfinish, hnarrow, hcalls.reopen_finish hplain hfinish hnarrow hlocator hlast⟩

end SourceLabel.Zip
