import SourceLabel.Proofs.Zip.ReadBack

/-!
# Comments of archives

When a writer is finished, the comment is the last thing that is written, right behind the end record. A
reader takes the last record whose comment ends the archive. So if such a record begins behind the one that
was written, as one can within a comment, it hides the one that was written. Any other comment is read back as
it was set, and with it all that the writer holds.
-/
namespace SourceLabel.Zip

namespace Writer

variable {w : Writer} {items : List (Entry × Bytes)}

/-- An archive that was opened has the comment and the items, in their order and one behind the other. -/
structure Recovered (a : Archive) (b comment : Bytes) (items : List (Entry × Bytes)) : Prop where
  comment : a.comment = comment
  size : a.entries.size = items.length
  entry : ∀ i (hi : i < items.length), ∃ offset, a.entries[i]? = some (items[i].1.recorded offset i) ∧
    offset.toNat = (image (items.take i)).length
  raw : ∀ i (hi : i < items.length), a.readRaw b i = .ok ⟨items[i].1.localExtra, items[i].2⟩

theorem Holds.recovered (h : w.Holds items) {done : Finished} (hfinish : w.finish = .ok done) :
    Recovered w.reopened done.bytes w.comment items where
  comment := rfl
  size := by simp [reopened, recordedFrom, h.size]
  entry _ hi := h.reopened_entry hi
  raw i hi := h.reopened_readRaw hfinish hi

/-- An archive is read with a comment that is shorter than the one that was set if a later record ends it. -/
theorem length_comment_lt {done : Finished} (hfinish : w.finish = .ok done) {a : Archive}
    (hparse : Archive.parse done.bytes = .ok a) {pos : Nat} (hpos : w.recordStart < pos)
    (hexact : EndRecord.endsExactly (done.bytes.drop pos)) : a.comment.length < w.comment.length := by
  obtain ⟨record, recordStart, ho⟩ := Archive.parse_eq_ok_iff.mp hparse
  have hlength := length_finish hfinish
  have hstart := tailStart_le_recordStart hfinish
  have hdrop : (done.bytes.drop (EndRecord.tailStart done.bytes.length)).drop
      (pos - EndRecord.tailStart done.bytes.length) = done.bytes.drop pos := by
    rw [List.drop_drop, Nat.add_sub_cancel' (by omega)]
  have hlater := EndRecord.le_of_find_of_endsExactly ho.find (hdrop ▸ hexact)
  have hwithin := EndRecord.le_of_find ho.find
  rw [List.length_drop] at hwithin
  rw [ho.comment]
  omega

/-- A comment is read back as it was set, with all that the writer holds, exactly if no record that ends the
archive begins behind the one that was written. -/
theorem Reached.recovered_iff (h : Reached w items) (hplain : ∀ item ∈ items, item.1.Plain) (hnarrow : w.Narrow)
    {comment : Bytes} {done : Finished} (hfinish : { w with comment }.finish = .ok done)
    (hlocator : EndRecord.hasLocator done.bytes w.recordStart = false) :
    (∃ a, Archive.parse done.bytes = .ok a ∧ Recovered a done.bytes comment items) ↔
      ∀ pos, w.recordStart < pos → EndRecord.endsExactly (done.bytes.drop pos) = false := by
  have hholds : { w with comment }.Holds items := h.holds.congr rfl rfl
  have hnarrow' : { w with comment }.Narrow := ⟨hnarrow.directoryOffset, hnarrow.directorySize, hnarrow.entries⟩
  constructor
  · intro ⟨a, hparse, hrecovered⟩ pos hpos
    refine Bool.eq_false_of_not_eq_true fun hexact => ?_
    have hshorter := length_comment_lt hfinish hparse hpos hexact
    rw [hrecovered.comment] at hshorter
    exact Nat.lt_irrefl _ hshorter
  · intro hlast
    exact ⟨_, hholds.parse_finish hplain hnarrow' hfinish hlocator hlast, hholds.recovered hfinish⟩

def byteEntry : Entry where
  name := ⟨"s", by decide, by decide⟩
  rawName := [0x73]
  method := .stored
  packedSize := 1
  size := 1

/-- Has refused the entry without its byte, and then taken it with the byte. -/
def byteWriter : Writer :=
  ((Call.copy byteEntry [5]).perform ((Call.copy byteEntry []).perform {}).2).2

/-- Describes an empty archive. -/
def emptyRecord : Bytes :=
  (⟨0, 0, 0, []⟩ : EndRecord).toBytes

def byteArchive (comment : Bytes) : Finished :=
  ⟨(byteWriter.sink.toList ++ byteWriter.directory) ++ { byteWriter with comment }.endRecord.toBytes, 1,
    101 + comment.length, byteWriter.tally⟩

theorem reached_byteWriter : Reached byteWriter [(byteEntry, [5])] := by
  have hrefused : (Call.copy byteEntry []).perform {} =
      (.error (.invalidFormat (.wrongPayloadSize "s" 0 1)), {}) := by cbv
  have htaken : ((Call.copy byteEntry [5]).perform {}).1 = .ok () := by cbv
  have hstart : Reached ((Call.copy byteEntry []).perform {}).2 [] := .refused _ _ (.start .standard) hrefused
  exact .taken (.copy byteEntry [5]) hstart (Prod.ext (by cbv) rfl)

/-- A comment that begins with an end record is read back if another byte follows. -/
theorem recovered_iff_recordWithin :
    Reached byteWriter [(byteEntry, [5])] ∧ (∀ item ∈ [(byteEntry, [(5 : UInt8)])], item.1.Plain) ∧
      byteWriter.Narrow ∧
      { byteWriter with comment := emptyRecord ++ [0] }.finish = .ok (byteArchive (emptyRecord ++ [0])) ∧
      EndRecord.hasLocator (byteArchive (emptyRecord ++ [0])).bytes byteWriter.recordStart = false ∧
      ∃ a, Archive.parse (byteArchive (emptyRecord ++ [0])).bytes = .ok a ∧
        Recovered a (byteArchive (emptyRecord ++ [0])).bytes (emptyRecord ++ [0]) [(byteEntry, [5])] := by
  have hplain : ∀ item ∈ [(byteEntry, [(5 : UInt8)])], item.1.Plain :=
    List.forall_mem_singleton.mpr ⟨by decide +kernel, by decide +kernel⟩
  have hnarrow : byteWriter.Narrow := by decide +kernel
  have hfinish : { byteWriter with comment := emptyRecord ++ [0] }.finish =
      .ok (byteArchive (emptyRecord ++ [0])) := by cbv
  have hlocator : EndRecord.hasLocator (byteArchive (emptyRecord ++ [0])).bytes byteWriter.recordStart = false := by
    decide +kernel
  have hlast : ∀ pos, byteWriter.recordStart < pos →
      EndRecord.endsExactly ((byteArchive (emptyRecord ++ [0])).bytes.drop pos) = false := by
    apply EndRecord.endsExactly_after_of_lt
    decide +kernel
  exact ⟨reached_byteWriter, hplain, hnarrow, hfinish, hlocator,
    (reached_byteWriter.recovered_iff hplain hnarrow hfinish hlocator).mpr hlast⟩

/-- A comment that is an end record is taken for the one of the archive: the archive opens without its entry and
without its comment. -/
theorem recordComment_hides :
    Reached byteWriter [(byteEntry, [5])] ∧ byteEntry.Plain ∧ byteWriter.Narrow ∧
      emptyRecord.length ≤ maxFieldLength ∧
      { byteWriter with comment := emptyRecord }.finish = .ok (byteArchive emptyRecord) ∧
      EndRecord.hasLocator (byteArchive emptyRecord).bytes byteWriter.recordStart = false ∧
      Archive.parse (byteArchive emptyRecord).bytes = .ok ⟨123, 0, #[], []⟩ := by
  refine ⟨reached_byteWriter, ⟨by decide +kernel, by decide +kernel⟩, by decide +kernel, by decide, ?_, ?_, ?_⟩
  · cbv
  · decide +kernel
  · decide +kernel

end Writer
end SourceLabel.Zip
