import SourceLabel.Proofs.Zip.Comment
import SourceLabel.Proofs.Zip.Window

/-!
# Archives that are read with their comment

A record in the comment of an archive can hide the one that was written, but it has a shorter comment itself. So if a
finished archive is opened with the comment that was set, the record that was written is the one that was found. All
numbers in the archive are then less than those that stand for larger ones, since readers refuse all others, and what
was opened is what the writer holds.
-/
namespace SourceLabel.Zip

theorem Entry.narrow_of_parse {e : Entry} {localOffset : UInt32} {rest : Bytes} {offset index : Nat}
    {r : Entry × Bytes} (h : parse (e.centralHeader localOffset ++ rest) offset index = .ok r) :
    e.Narrow localOffset := by
  obtain ⟨f, b', t, name, hread, -, hzip64, -⟩ := parse_eq_ok_iff.mp h
  have hbytes : e.centralHeader localOffset ++ rest = (e.centralFields localOffset).toBytes ++
      (e.rawName ++ (e.extra ++ (e.comment ++ rest))) := by
    simp only [centralHeader, List.append_assoc]
  rw [hbytes, CentralFields.read?_toBytes] at hread
  obtain ⟨rfl, -⟩ := Prod.mk.inj (Prod.mk.inj (Option.some.inj hread)).2
  simp only [CentralFields.isZip64, Bool.or_eq_false_iff, decide_eq_false_iff_not] at hzip64
  obtain ⟨⟨hpacked, hsize⟩, hoffset⟩ := hzip64
  have hlt {n : UInt32} (h : n ≠ 0xFFFFFFFF) : n < 0xFFFFFFFF :=
    UInt32.lt_of_le_of_ne (UInt32.le_iff_toNat_le.mpr (Nat.le_of_lt_succ n.toNat_lt)) h
  exact ⟨hlt hpacked, hlt hsize, hlt hoffset⟩

/-- If a directory is read to its end, none of its headers needs wider numbers. -/
theorem Archive.narrow_of_readDirectory {directory offset : Nat} {records : List (Entry × UInt32)}
    (hrecords : ∀ record ∈ records, Writer.fits record.1 ∧ record.1.Plain) {entries result : Array Entry}
    (h : readDirectory directory records.length offset
      (records.flatMap fun record => record.1.centralHeader record.2) entries = .ok result) :
    ∀ record ∈ records, record.1.Narrow record.2 := by
  induction records generalizing offset entries with
  | nil => exact fun _ hm => absurd hm List.not_mem_nil
  | cons record records ih =>
    obtain ⟨hfits, hplain⟩ := hrecords record List.mem_cons_self
    rw [List.length_cons, List.flatMap_cons, readDirectory] at h
    split at h
    · cases h
    next e rest hparse =>
    have hnarrow := Entry.narrow_of_parse hparse
    rw [Entry.parse_centralHeader hfits hplain hnarrow] at hparse
    obtain ⟨rfl, rfl⟩ := Prod.mk.inj (Except.ok.inj hparse)
    split at h
    · cases h
    · exact List.forall_mem_cons.mpr ⟨hnarrow, ih (fun r hm => hrecords r (List.mem_cons_of_mem _ hm)) h⟩

theorem EndRecord.toBytes_inj {r r' : EndRecord} (h : r.toBytes = r'.toBytes) : r = r' := by
  have hread := (read?_toBytes r).symm.trans ((congrArg EndFields.read? h).trans (read?_toBytes r'))
  obtain ⟨hfields, hcomment⟩ := Prod.mk.inj (Prod.mk.inj (Option.some.inj hread)).2
  obtain ⟨-, -, -, hcount, hsize, hoffset, -⟩ := EndFields.mk.inj hfields
  obtain ⟨count, directorySize, directoryOffset, comment⟩ := r
  exact congr (congr (congr (congrArg EndRecord.mk hcount) hsize) hoffset) hcomment

namespace Writer

variable {w : Writer} {items : List (Entry × Bytes)} {done : Finished} {a : Archive}

theorem toNat_endRecord (hfinish : w.finish = .ok done) :
    w.endRecord.directoryOffset.toNat = w.sink.size ∧ w.endRecord.directorySize.toNat = w.directory.length := by
  simp only [finish] at hfinish
  obtain ⟨offset, hoffset, h⟩ := Result.bind_eq_ok.mp hfinish
  obtain ⟨size, hsize, -⟩ := Result.bind_eq_ok.mp h
  constructor
  · rw [← toNat_of_fit32 hoffset, fit32_eq_ok hoffset]
    rfl
  · rw [← toNat_of_fit32 hsize, fit32_eq_ok hsize]
    rfl

/-- The record that is found with the comment that was set is the one that was written. -/
theorem endRecord_of_find (hfinish : w.finish = .ok done) {record : EndRecord} {recordStart : Nat}
    (hfind : EndRecord.find (done.bytes.drop (EndRecord.tailStart done.bytes.length))
      (EndRecord.tailStart done.bytes.length) = .ok (record, recordStart))
    (hcomment : record.comment = w.comment) : record = w.endRecord := by
  obtain ⟨-, -, hwritten, -, -⟩ := EndRecord.find_tail_eq_ok.mp hfind
  have hlength := length_finish hfinish
  have htail := tailStart_le_recordStart hfinish
  have hdrop := drop_recordStart hfinish
  -- what begins before the record is not taken, and what begins behind it has no room for the comment
  have hstart : recordStart = w.recordStart := by
    have hexact : EndRecord.endsExactly ((done.bytes.drop (EndRecord.tailStart done.bytes.length)).drop
        (w.recordStart - EndRecord.tailStart done.bytes.length)) := by
      rw [List.drop_drop, Nat.add_sub_cancel' htail, hdrop]
      exact EndRecord.endsExactly_toBytes (finish_eq_ok hfinish).1
    have hfirst := EndRecord.le_of_find_of_endsExactly hfind hexact
    have hroom := EndRecord.le_of_find hfind
    rw [hcomment, List.length_drop] at hroom
    omega
  have hrecord : record.toBytes = w.endRecord.toBytes := by
    rw [← hwritten.bytes, hstart, hdrop, hcomment]
    exact List.take_of_length_le (Nat.le_of_eq (EndRecord.length_toBytes _))
  exact EndRecord.toBytes_inj hrecord

/-- What was opened from its own record needs no wider numbers. -/
theorem Holds.narrow_of_openedBy (h : w.Holds items) (hplain : ∀ item ∈ items, item.1.Plain)
    (hfinish : w.finish = .ok done) {recordStart : Nat}
    (ho : Archive.OpenedBy done.bytes a w.endRecord recordStart) : w.Narrow := by
  obtain ⟨-, -, -, hrecord, -⟩ := EndRecord.find_tail_eq_ok.mp ho.find
  obtain ⟨hoffset, hsize⟩ := toNat_endRecord hfinish
  have hcount : w.endRecord.count.toNat = w.central.toList.length := by
    have hmax : maxEntries = 65534 := rfl
    have hle := h.length_le
    have hcentral := h.size
    rw [endRecord, UInt16.toNat_ofNat', Array.length_toList]
    omega
  have hdirectory : (done.bytes.drop w.sink.size).take w.directory.length = w.directory := by
    rw [(finish_eq_ok hfinish).2, List.append_assoc, ← Array.length_toList, List.drop_left, List.take_left]
  have hentries := ho.entries
  rw [hoffset, hsize, hcount, hdirectory] at hentries
  refine ⟨?_, ?_, Archive.narrow_of_readDirectory (fun record hm => ?_) hentries⟩
  · exact hoffset ▸ UInt32.lt_iff_toNat_lt.mp hrecord.directoryOffset
  · exact hsize ▸ UInt32.lt_iff_toNat_lt.mp hrecord.directorySize
  · obtain ⟨i, hi, he, -⟩ := h.mem_central hm
    exact he ▸ ⟨(h.fits _ (List.getElem_mem hi)).1, hplain _ (List.getElem_mem hi)⟩

/-- An archive that is opened with the comment that was set is what the writer holds. -/
theorem Holds.eq_reopened (h : w.Holds items) (hplain : ∀ item ∈ items, item.1.Plain)
    (hfinish : w.finish = .ok done) (hparse : Archive.parse done.bytes = .ok a) (hcomment : a.comment = w.comment) :
    a = w.reopened := by
  obtain ⟨record, recordStart, ho⟩ := Archive.parse_eq_ok_iff.mp hparse
  obtain rfl := endRecord_of_find hfinish ho.find (ho.comment ▸ hcomment)
  have hlast : ∀ pos, w.recordStart < pos → EndRecord.endsExactly (done.bytes.drop pos) = false := by
    intro pos hpos
    refine Bool.eq_false_of_not_eq_true fun hexact => ?_
    exact absurd (congrArg List.length hcomment) (Nat.ne_of_lt (length_comment_lt hfinish hparse hpos hexact))
  have hreopened := h.parse_finish_eq hplain (h.narrow_of_openedBy hplain hfinish ho) hfinish hlast
  rw [hparse] at hreopened
  split at hreopened
  · exact nomatch hreopened
  · exact Except.ok.inj hreopened

end Writer
end SourceLabel.Zip
