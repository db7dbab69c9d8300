import SourceLabel.Proofs.Zip.Legible

/-!
# Comments that readers have found

The comment of an archive that is read has been found behind its end record, so no record begins in it, or in the
field for its length, and ends with it: that record would have been found instead. If the comment is written again,
behind another end record, a record can hide that one only if it begins in the fixed part before the length of the
comment. The numbers in this part are those of an archive that was written, and they look like the beginning of a
record only if the directory lies far behind the beginning of the archive.
-/
namespace SourceLabel.Zip

namespace EndRecord

variable {b tail : Bytes} {r r' : EndRecord} {start recordStart k : Nat}

/-- What follows the numbers of an end record: the length of the comment, and the comment. -/
def trailer (comment : Bytes) : Bytes :=
  Bytes.le16 (UInt16.ofNat comment.length) ++ comment

/-- A record ends with the comment, and begins in it or in the field for its length. -/
def EndsComment (comment : Bytes) : Prop :=
  ∃ k, ∃ r : EndRecord, r.comment.length ≤ Writer.maxFieldLength ∧ (trailer comment).drop k = r.toBytes

/-- Where the length of the comment is written. -/
def trailerStart : Nat := 20

theorem drop_trailerStart (r : EndRecord) : r.toBytes.drop trailerStart = trailer r.comment := rfl

theorem not_endsComment_of_find (h : find tail start = .ok (r, recordStart)) : ¬ EndsComment r.comment := by
  rintro ⟨k, r', hlength, hrecord⟩
  obtain ⟨pos, -, hwritten, hpreferred, -⟩ := find_eq_ok_iff_preferred.mp h
  obtain ⟨rest, hdrop⟩ := hwritten.drop
  have hroom := congrArg List.length hrecord
  rw [List.length_drop, length_toBytes] at hroom
  have hfixed : EndFields.length = 22 := rfl
  have htrailer : (trailer r.comment).length = r.comment.length + 2 := rfl
  have hlater : tail.drop (pos + (trailerStart + k)) = r'.fields.toBytes ++ (r'.comment ++ rest) := by
    have hbytes : tail.drop pos = r.toBytes ++ rest := hdrop.trans (List.append_assoc _ _ _).symm
    have hstart : trailerStart ≤ r.toBytes.length := by
      rw [length_toBytes]
      exact Nat.le_add_right_of_le (by decide)
    rw [← List.drop_drop, hbytes, ← List.drop_drop, List.drop_append_of_le_length hstart, drop_trailerStart,
      List.drop_append_of_le_length (by omega), hrecord]
    exact List.append_assoc _ _ _
  have hspans : Spans tail (pos + (trailerStart + k)) (pos + EndFields.length + r.comment.length) := by
    refine ⟨r'.fields, _, hlater, ?_⟩
    rw [show r'.fields.commentLength.toNat = r'.comment.length from toNat_lengthField hlength]
    have htwenty : trailerStart = 20 := rfl
    omega
  have hafter : pos < pos + (trailerStart + k) := Nat.lt_add_of_pos_right (Nat.add_pos_left (by decide) k)
  rcases Nat.lt_or_eq_of_le hpreferred.stop_le with hlt | heq
  · exact (hpreferred.inside hlt).2 _ hafter _ hpreferred.stop_le hspans
  · exact hpreferred.last _ hafter (heq ▸ hspans)

theorem map_toNat_toBytes (r : EndRecord) :
    r.toBytes.map UInt8.toNat =
      0x50 :: 0x4B :: 5 :: 6 :: 0 :: 0 :: 0 :: 0 ::
        r.count.toNat % 256 :: r.count.toNat / 256 % 256 :: r.count.toNat % 256 :: r.count.toNat / 256 % 256 ::
        r.directorySize.toNat % 256 :: r.directorySize.toNat / 256 % 256 :: r.directorySize.toNat / 65536 % 256 ::
        r.directorySize.toNat / 16777216 % 256 ::
        r.directoryOffset.toNat % 256 :: r.directoryOffset.toNat / 256 % 256 ::
        r.directoryOffset.toNat / 65536 % 256 :: r.directoryOffset.toNat / 16777216 % 256 ::
        (UInt16.ofNat r.comment.length).toNat % 256 :: (UInt16.ofNat r.comment.length).toNat / 256 % 256 ::
        r.comment.map UInt8.toNat := by
  simp only [toBytes, EndFields.toBytes, Bytes.le16, Bytes.le32, List.cons_append, List.nil_append, List.map_cons,
    Bytes.toNat_ofNat]
  rfl

/-- A record that begins in the numbers of another one and ends with it: these numbers count more entries than the
directory has room for, or the directory lies before any payload could, or it lies far behind the beginning. -/
theorem numbers_of_drop (h : r.toBytes.drop k = r'.toBytes) (hpos : 0 < k) (hk : k < trailerStart)
    (hlength : r.comment.length ≤ Writer.maxFieldLength) :
    r.directorySize.toNat < 46 * r.count.toNat ∨ r.directoryOffset.toNat < 30 ∧ 0 < r.directorySize.toNat ∨
      0x4B500000 ≤ r.directoryOffset.toNat := by
  have hshorter := congrArg List.length h
  rw [List.length_drop, length_toBytes, length_toBytes] at hshorter
  have hfield := toNat_lengthField hlength
  have hcount := r.count.toNat_lt
  have hsize := r.directorySize.toNat_lt
  have hoffset := r.directoryOffset.toNat_lt
  have hmax : Writer.maxFieldLength = 65535 := rfl
  have hfixed : EndFields.length = 22 := rfl
  have htwenty : trailerStart = 20 := rfl
  have hbytes := congrArg (List.map UInt8.toNat) h
  simp only [List.map_drop, map_toNat_toBytes] at hbytes
  rw [htwenty] at hk
  interval_cases k
  all_goals
    simp only [List.drop_succ_cons, List.drop_zero, List.cons.injEq] at hbytes
    omega

end EndRecord

/-- The comment of an archive that is read does not end with a record. -/
theorem Archive.not_endsComment_of_parse {b : Bytes} {a : Archive} (h : parse b = .ok a) :
    ¬ EndRecord.EndsComment a.comment := by
  obtain ⟨record, recordStart, ho⟩ := parse_eq_ok_iff.mp h
  rw [ho.comment]
  exact EndRecord.not_endsComment_of_find ho.find

namespace Writer

variable {w : Writer} {items : List (Entry × Bytes)} {done : Finished} {a : Archive}

theorem length_directory_le (w : Writer) : 46 * w.central.size ≤ w.directory.length := by
  have hheader (record : Entry × UInt32) : 46 ≤ (record.1.centralHeader record.2).length := by
    rw [Entry.centralHeader, List.length_append, CentralFields.length_toBytes]
    exact Nat.le_add_right 46 _
  rw [directory, List.length_flatMap, ← Array.length_toList, Nat.mul_comm, ← smul_eq_mul]
  have hsum := List.card_nsmul_le_sum (w.central.toList.map fun record => (record.1.centralHeader record.2).length) 46
    (List.forall_mem_map.mpr fun record _ => hheader record)
  rwa [List.length_map] at hsum

theorem Holds.length_sink_le (h : w.Holds items) (hdirectory : 0 < w.directory.length) : 30 ≤ w.sink.size := by
  cases items with
  | nil =>
    have hcentral : w.central = #[] := Array.size_eq_zero_iff.mp h.size
    rw [directory, hcentral] at hdirectory
    exact absurd hdirectory (Nat.lt_irrefl 0)
  | cons item items =>
    have hheader := Entry.length_localHeader item.1
    have hfixed : LocalFields.length = 30 := rfl
    rw [← Array.length_toList, h.sink, image_cons, List.length_append]
    omega

/-- What hides the record of a finished archive begins behind its beginning, and ends with it. -/
theorem drop_of_hidden (hfinish : w.finish = .ok done) {record : EndRecord} {recordStart : Nat}
    (hfind : EndRecord.find (done.bytes.drop (EndRecord.tailStart done.bytes.length))
      (EndRecord.tailStart done.bytes.length) = .ok (record, recordStart))
    (hcomment : record.comment ≠ w.comment) :
    ∃ k, 0 < k ∧ record.comment.length ≤ maxFieldLength ∧ w.endRecord.toBytes.drop k = record.toBytes := by
  obtain ⟨hlength, hbytes⟩ := finish_eq_ok hfinish
  obtain ⟨-, hposition, hwritten, -⟩ := EndRecord.find_tail_eq_ok.mp hfind
  obtain ⟨stop, hpreferred⟩ := EndRecord.position?_eq_some_iff.mp hposition
  obtain rfl := hpreferred.spans.unique hwritten.spans
  have hdrop := drop_recordStart hfinish
  have hown : EndRecord.Spans done.bytes w.recordStart done.bytes.length := by
    refine ⟨w.endRecord.fields, w.comment, hdrop, ?_⟩
    rw [length_finish hfinish, show w.endRecord.fields.commentLength.toNat = w.comment.length from
      toNat_lengthField hlength, Nat.add_assoc]
  -- the record that was written ends with the archive, so the one that is found does too, and comes later
  have hend : recordStart + EndFields.length + record.comment.length = done.bytes.length :=
    (Nat.lt_or_eq_of_le hpreferred.stop_le).resolve_left fun hlt => (hpreferred.inside hlt).1 _ hown
  have hle : w.recordStart ≤ recordStart := Nat.le_of_not_lt fun hlt => hpreferred.last _ hlt hown
  obtain ⟨k, rfl⟩ := Nat.exists_eq_add_of_le hle
  have hrecord : w.endRecord.toBytes.drop k = record.toBytes := by
    rw [← hwritten.bytes, ← hdrop, List.drop_drop]
    refine (List.take_of_length_le (Nat.le_of_eq ?_)).symm
    rw [List.length_drop]
    omega
  refine ⟨k, Nat.pos_of_ne_zero ?_, hwritten.comment, hrecord⟩
  rintro rfl
  exact hcomment (congrArg EndRecord.comment (EndRecord.toBytes_inj hrecord)).symm

/-- If a finished archive is read with another comment than the one that was set, and this was found in an archive,
then the directory lies far behind the beginning. -/
theorem Holds.far_of_hidden (h : w.Holds items) (hfinish : w.finish = .ok done)
    (hparse : Archive.parse done.bytes = .ok a) (hcomment : a.comment ≠ w.comment)
    (hfound : ¬ EndRecord.EndsComment w.comment) : 0x4B500000 ≤ w.sink.size := by
  obtain ⟨record, recordStart, ho⟩ := Archive.parse_eq_ok_iff.mp hparse
  obtain ⟨k, hk, hlength, hrecord⟩ := drop_of_hidden hfinish ho.find (ho.comment ▸ hcomment)
  rcases Nat.lt_or_ge k EndRecord.trailerStart with hlt | hge
  · obtain ⟨hoffset, hsize⟩ := toNat_endRecord hfinish
    have hnumbers := EndRecord.numbers_of_drop hrecord hk hlt (finish_eq_ok hfinish).1
    rw [hoffset, hsize] at hnumbers
    have hdirectory := length_directory_le w
    have hcount : w.endRecord.count.toNat ≤ w.central.size := Nat.mod_le _ _
    rcases hnumbers with hfew | ⟨hnear, hsome⟩ | hfar
    · omega
    · exact absurd (h.length_sink_le hsome) (Nat.not_le.mpr hnear)
    · exact hfar
  · obtain ⟨m, rfl⟩ := Nat.exists_eq_add_of_le hge
    refine absurd ⟨m, record, hlength, ?_⟩ hfound
    rw [← hrecord, ← List.drop_drop, EndRecord.drop_trailerStart]
    rfl

end Writer
end SourceLabel.Zip
