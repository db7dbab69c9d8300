import SourceLabel.Proofs.Zip.Directory

/-!
# Payloads of an archive that was opened

An archive that opens has a directory that lies before its end record, and each entry has its local header
begin before the directory. A header of the directory is longer than the fixed part of a local header, so there
are always enough bytes for that part, even if it runs into the directory. What follows it is checked against
the length of the archive as a whole. So no payload ends before it has been read: either the local header, its
name and extra field and the payload all lie within the archive, or the header is called corrupt.
-/
namespace SourceLabel.Zip

/-- The local header of the entry begins where the directory says, its name and extra field are as long as it
says itself, and the payload behind them is as long as the directory says. All of this lies within the bytes. -/
def Entry.Stored (e : Entry) (b : Bytes) (raw : RawEntry) : Prop :=
  raw.data.length = e.packedSize.toNat ∧ ∃ (before : Bytes) (f : LocalFields) (name after : Bytes),
    b = before ++ (f.toBytes ++ (name ++ (raw.localExtra ++ (raw.data ++ after)))) ∧
    before.length = e.localOffset.toNat ∧ name.length = f.nameLength.toNat ∧
    raw.localExtra.length = f.extraLength.toNat

namespace Archive

variable {b : Bytes} {a : Archive} {e : Entry} {raw : RawEntry} {index : Nat} {fault : Error}

/-! ## Where payloads may lie -/

theorem centralLength_le_of_parse (h : parse b = .ok a) (he : e ∈ a.entries) :
    a.directoryOffset + e.centralLength + EndFields.length ≤ b.length := by
  obtain ⟨record, recordStart, ho⟩ := parse_eq_ok_iff.mp h
  obtain ⟨read, headers, unread, hread, -, hall, hdirectory⟩ := headers_of_readDirectory ho.entries
  have hone : e.centralLength ≤ headers.flatten.length := by
    rw [length_flatten_of_readFrom hall]
    rw [hread, ← Array.mem_toList_iff, Array.toList_appendList, List.nil_append] at he
    exact List.le_sum_of_mem (List.mem_map_of_mem he)
  have hsize : headers.flatten.length ≤ record.directorySize.toNat := by
    rw [← ho.length_directoryBytes, directoryBytes, hdirectory, List.length_append]
    exact Nat.le_add_right _ _
  have hstop := ho.stop_le
  have hrecord := EndRecord.le_of_find ho.find
  have hstart : EndRecord.tailStart b.length ≤ b.length := Nat.sub_le _ _
  rw [List.length_drop] at hrecord
  rw [ho.directoryOffset]
  omega

theorem localFields_le_of_parse (h : parse b = .ok a) (he : e ∈ a.entries) :
    e.localOffset.toNat + LocalFields.length ≤ b.length := by
  have hbefore := (mem_of_parse h he).1
  have hheader := centralLength_le_of_parse h he
  have hlocal : LocalFields.length = 30 := rfl
  have hcentral : CentralFields.length = 46 := rfl
  rw [Entry.centralLength] at hheader
  omega

/-! ## Reading payloads -/

theorem readRaw_eq_ok_iff (he : a.entries[index]? = some e) (hlength : a.length = b.length) :
    a.readRaw b index = .ok raw ↔ e.Stored b raw := by
  constructor
  · intro h
    unfold readRaw at h
    rw [he] at h
    dsimp only at h
    split at h
    · exact nomatch h
    next hfixed =>
    obtain ⟨⟨f, rest⟩, hparse, h⟩ := Result.bind_eq_ok.mp h
    dsimp only at h
    split at h
    · exact nomatch h
    next hend =>
    split at h
    case h_2 => exact nomatch h
    next localExtra rest' hextra =>
    split at h
    case h_2 => exact nomatch h
    next data after hdata =>
    obtain rfl := Except.ok.inj h
    obtain ⟨hextraLength, hrest⟩ := Bytes.takeExact?_eq_some.mp hextra
    obtain ⟨hdataLength, rfl⟩ := Bytes.takeExact?_eq_some.mp hdata
    have hdrop := LocalFields.parse_eq_ok_iff.mp hparse
    have hsize := congrArg List.length hdrop
    rw [List.length_append, LocalFields.length_toBytes, List.length_drop] at hsize
    rw [hlength] at hend
    refine ⟨hdataLength, b.take e.localOffset.toNat, f, rest.take f.nameLength.toNat, after, ?_, ?_, ?_, hextraLength⟩
    · rw [← hrest, List.take_append_drop, ← hdrop, List.take_append_drop]
    · rw [List.length_take]
      omega
    · rw [List.length_take]
      omega
  · rintro ⟨hdata, before, f, name, after, rfl, hbefore, hname, hextra⟩
    have hdrop : (before ++ (f.toBytes ++ (name ++ (raw.localExtra ++ (raw.data ++ after))))).drop e.localOffset.toNat =
        f.toBytes ++ (name ++ (raw.localExtra ++ (raw.data ++ after))) := List.drop_left' hbefore
    have hfixed : Bytes.takeExact? LocalFields.length
        (f.toBytes ++ (name ++ (raw.localExtra ++ (raw.data ++ after)))) = some (f.toBytes, _) :=
      Bytes.takeExact?_append (LocalFields.length_toBytes f).symm _
    have hend : ¬ a.length < e.localOffset.toNat + (LocalFields.length + f.nameLength.toNat + f.extraLength.toNat) +
        e.packedSize.toNat := by
      simp only [hlength, List.length_append, LocalFields.length_toBytes]
      omega
    simp only [readRaw, he, hdrop, hfixed, Option.isNone_some, Bool.false_eq_true, if_false, bind, Except.bind,
      LocalFields.parse_toBytes, hend, pure, Except.pure, List.drop_left' hname,
      Bytes.takeExact?_append hextra.symm, Bytes.takeExact?_append hdata.symm]

/-- With enough bytes for the fixed part of a local header, nothing fails but the header. -/
theorem corrupt_of_readRaw (he : a.entries[index]? = some e) (hlength : a.length = b.length)
    (hfixed : e.localOffset.toNat + LocalFields.length ≤ b.length) (h : a.readRaw b index = .error fault) :
    ∃ cause, fault = .corruptHeader e.localOffset.toNat cause := by
  unfold readRaw at h
  rw [he] at h
  dsimp only at h
  split at h
  next hshort =>
    rw [Bytes.takeExact?_eq, List.length_drop, if_pos (by omega)] at hshort
    exact nomatch hshort
  rcases Result.bind_eq_error.mp h with hparse | ⟨⟨f, rest⟩, hparse, h⟩
  · exact ⟨_, LocalFields.parse_eq_error hparse⟩
  dsimp only at h
  split at h
  · exact ⟨_, (Except.error.inj h).symm⟩
  next hend =>
  -- The name, the extra field and the payload end within the archive.
  have hsize := congrArg List.length (LocalFields.parse_eq_ok_iff.mp hparse)
  rw [List.length_append, LocalFields.length_toBytes, List.length_drop] at hsize
  rw [hlength] at hend
  have hrest : f.nameLength.toNat + f.extraLength.toNat + e.packedSize.toNat ≤ rest.length := by omega
  rw [Bytes.takeExact?_eq, List.length_drop, if_pos (by omega)] at h
  dsimp only at h
  rw [Bytes.takeExact?_eq, List.length_drop, List.length_drop, if_pos (by omega)] at h
  exact nomatch h

/-- Of an archive that was opened, each entry below the number of entries is read as it is stored, which is within
the archive, or else nothing is stored where it should be, and its local header is called corrupt. There is no
other failure. -/
theorem readRaw_of_parse (h : parse b = .ok a) (hi : index < a.entries.size) :
    (∃ raw, a.readRaw b index = .ok raw ∧ a.entries[index].Stored b raw) ∨
      (∃ cause, a.readRaw b index = .error (.corruptHeader a.entries[index].localOffset.toNat cause)) ∧
        ∀ raw, ¬ a.entries[index].Stored b raw := by
  obtain ⟨record, recordStart, ho⟩ := parse_eq_ok_iff.mp h
  have he : a.entries[index]? = some a.entries[index] := Array.getElem?_eq_getElem hi
  cases hread : a.readRaw b index with
  | ok raw => exact .inl ⟨raw, rfl, (readRaw_eq_ok_iff he ho.length).mp hread⟩
  | error fault =>
    have hfixed := localFields_le_of_parse h (Array.getElem_mem hi)
    obtain ⟨cause, rfl⟩ := corrupt_of_readRaw he ho.length hfixed hread
    refine .inr ⟨⟨cause, rfl⟩, fun raw hstored => ?_⟩
    rw [(readRaw_eq_ok_iff he ho.length).mpr hstored] at hread
    exact nomatch hread

/-- The fixed part of a local header, whose extra field runs into the directory right behind it. -/
def overlappingFields : LocalFields :=
  ⟨20, 0, 0, 0, 33, 0, 7, 7, 1, 40⟩

/-- Payload and extra field lie within the directory. -/
def overlappingEntry : Entry :=
  { emptyEntry ⟨"o", by decide, by decide⟩ [0x6F] with packedSize := 7, size := 7 }

/-- The local header would begin with the last byte before the directory. -/
def headlessEntry : Entry :=
  { emptyEntry ⟨"h", by decide, by decide⟩ [0x68] with localOffset := 29, index := 1 }

def overlapping : Bytes :=
  overlappingFields.toBytes ++ (overlappingEntry.centralHeader 0 ++ (headlessEntry.centralHeader 29 ++
    (⟨2, 94, 30, []⟩ : EndRecord).toBytes))

def overlappingRead : Archive :=
  ⟨146, 30, #[overlappingEntry, headlessEntry], []⟩

theorem openedBy_overlapping : OpenedBy overlapping overlappingRead ⟨2, 94, 30, []⟩ 124 where
  find := by cbv
  stop_le := by decide
  length := by decide +kernel
  directoryOffset := rfl
  comment := rfl
  entries := by cbv

/-- One payload is read out of the directory, and the other one is refused. -/
theorem readRaw_of_parse_overlapping :
    parse overlapping = .ok overlappingRead ∧
    (∃ raw, overlappingRead.readRaw overlapping 0 = .ok raw ∧ overlappingEntry.Stored overlapping raw) ∧
    (∃ cause, overlappingRead.readRaw overlapping 1 = .error (.corruptHeader 29 cause)) ∧
      ∀ raw, ¬ headlessEntry.Stored overlapping raw := by
  have hparse : parse overlapping = .ok overlappingRead := parse_eq_ok_iff.mpr ⟨_, _, openedBy_overlapping⟩
  refine ⟨hparse, ?_, ?_⟩
  · have hok : (overlappingRead.readRaw overlapping 0).isOk := by decide +kernel
    refine (readRaw_of_parse hparse (Nat.zero_lt_succ 1)).resolve_right ?_
    rintro ⟨⟨cause, hcorrupt⟩, -⟩
    rw [hcorrupt] at hok
    exact nomatch hok
  · have herror : ¬ (overlappingRead.readRaw overlapping 1).isOk := by decide +kernel
    refine (readRaw_of_parse hparse (Nat.lt_succ_self 1)).resolve_left ?_
    rintro ⟨raw, hread, -⟩
    rw [hread] at herror
    exact herror rfl

end Archive
end SourceLabel.Zip
