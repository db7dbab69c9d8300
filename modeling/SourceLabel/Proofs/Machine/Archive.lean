import SourceLabel.Proofs.Machine.Finding
import SourceLabel.Proofs.Zip.Directory

/-!
# Archives on a machine

The directory is read by positions: each header says where the next one begins, and the parts of a header are
sliced out of it. Payloads are read from a stream, whose position is wherever the last call has left it; each
call begins by setting it. All lengths and offsets come from the bytes themselves, and the checks that are made
on them are what keeps the sums within words and the slices within the directory.
-/
namespace SourceLabel.Machine

open Zip

/-! ## The machine -/

def readCentralFields (directory : Bytes) (pos : Nat) : Checked CentralFields := do
  let madeBy ← field16 directory pos 4
  let needed ← field16 directory pos 6
  let flags ← field16 directory pos 8
  let method ← field16 directory pos 10
  let time ← field16 directory pos 12
  let date ← field16 directory pos 14
  let checksum ← field32 directory pos 16
  let packedSize ← field32 directory pos 20
  let size ← field32 directory pos 24
  let nameLength ← field16 directory pos 28
  let extraLength ← field16 directory pos 30
  let commentLength ← field16 directory pos 32
  let disk ← field16 directory pos 34
  let internalAttributes ← field16 directory pos 36
  let externalAttributes ← field32 directory pos 38
  let localOffset ← field32 directory pos 42
  return ⟨madeBy, needed, flags, method, time, date, checksum, packedSize, size, nameLength, extraLength,
    commentLength, disk, internalAttributes, externalAttributes, localOffset⟩

/-- The entry whose header is at `pos` of the directory, and where the next header begins. The directory
begins at `start` of the archive. -/
def parseCentral (directory : Bytes) (pos start index : Nat) : Guarded Error (Entry × Nat) := do
  let offset ← add start pos
  refuse (directory.length - pos < CentralFields.length) (.corruptHeader offset .truncatedCentral)
  let sign ← u32At directory pos
  refuse (sign ≠ some CentralFields.signature) (.corruptHeader offset .badCentralSignature)
  let f ← readCentralFields directory pos
  let nameStart ← add pos CentralFields.length
  let extraStart ← add nameStart f.nameLength.toNat
  let commentStart ← add extraStart f.extraLength.toNat
  let next ← add commentStart f.commentLength.toNat
  refuse (directory.length < next) (.corruptHeader offset .centralOverrun)
  refuse f.isZip64 (.unsupportedFeature .zip64)
  refuse (f.flags &&& Entry.encryptedFlag ≠ 0) (.unsupportedFeature .encryption)
  let rawName ← slice directory nameStart extraStart
  match EntryName.ofString (Text.ofUtf8Lossy rawName) with
  | .error fault => throw (.corruptHeader offset (.badName fault))
  | .ok name =>
    let extra ← slice directory extraStart commentStart
    let comment ← slice directory commentStart next
    return (Entry.ofFields f ⟨rawName, extra, comment⟩ name index, next)

def readEntries (directory : Bytes) (start : Nat) : (left pos : Nat) → Array Entry →
    Guarded Error (Array Entry)
  | 0, _, entries => return entries
  | left + 1, pos, entries => do
    let (e, next) ← parseCentral directory pos start entries.size
    if start ≤ e.localOffset.toNat then
      let offset ← add start pos
      throw (.corruptHeader offset (.offsetIntoDirectory e.name.text))
    else readEntries directory start left next (entries.push e)

def openArchive (b : Bytes) : Reading Error Archive := do
  let length := b.length
  let tailLength := min length EndRecord.maxLength
  let tailStart ← sub length tailLength
  seek tailStart
  let tail ← readExact b tailLength
  let (record, recordStart) ← find tail tailStart
  let start := record.directoryOffset.toNat
  let stop ← add start record.directorySize.toNat
  refuse (recordStart < stop) (Error.corruptHeader recordStart (.directoryOverlap start stop))
  seek start
  let directory ← readExact b record.directorySize.toNat
  allocate (elementSize * record.count.toNat)
  let entries ← readEntries directory start record.count.toNat 0 #[]
  return ⟨length, start, entries, record.comment⟩

def parseLocal (fixed : Bytes) (offset : Nat) : Guarded Error (Nat × Nat) := do
  let sign ← u32At fixed 0
  refuse (fixed.length < LocalFields.length ∨ sign ≠ some LocalFields.signature)
    (.corruptHeader offset .badLocalSignature)
  let nameLength ← u16At fixed 26
  let extraLength ← u16At fixed 28
  return ((nameLength.getD 0).toNat, (extraLength.getD 0).toNat)

def readRaw (a : Archive) (b : Bytes) (index : Nat) : Reading Error RawEntry := do
  match a.entries[index]? with
  | none => throw (.invalidFormat (.noSuchEntry index))
  | some e =>
    let start := e.localOffset.toNat
    seek start
    let fixed ← readExact b LocalFields.length
    let (nameLength, extraLength) ← parseLocal fixed start
    let throughName ← add LocalFields.length nameLength
    let throughExtra ← add throughName extraLength
    let dataStart ← add start throughExtra
    let dataStop ← add dataStart e.packedSize.toNat
    refuse (a.length < dataStop) (Error.corruptHeader start (.payloadPastEnd e.name.text))
    skip nameLength
    let localExtra ← readExact b extraLength
    let data ← readExact b e.packedSize.toNat
    return ⟨localExtra, data⟩

/-- The most room that is set aside before anything has been unpacked. -/
def unpackRoom : Nat := 64 * 2 ^ 20

def decompress (e : Entry) (raw : Bytes) : Guarded Error Bytes := do
  if e.method = .deflated then
    allocate (min (e.size.toNat + 1) unpackRoom)
  answer (e.unpack raw)

def read (a : Archive) (b : Bytes) (index : Nat) : Reading Error Bytes := do
  let raw ← readRaw a b index
  let e ← fetch a.entries[index]?
  decompress e raw.data

/-! ## Headers -/

variable {b directory rest : Bytes} {pos start index : Nat} {sign : UInt32}

theorem length_lt_of_readCentral (h : CentralFields.read? b = none) : b.length < CentralFields.length := by
  refine Nat.lt_of_not_le fun hlength : 46 ≤ b.length => ?_
  have hsome : (CentralFields.read? b).isSome := by
    unfold CentralFields.read?
    iterate 17
      first
        | refine Bytes.isSome_bind_take32? hlength (by decide) fun _ _ hlength => ?_
        | refine Bytes.isSome_bind_take16? hlength (by decide) fun _ _ hlength => ?_
    rfl
  rw [h] at hsome
  exact nomatch hsome

theorem readCentralFields_eq {f : CentralFields} (hb : directory.length < lengthBound)
    (h : CentralFields.read? (directory.drop pos) = some (sign, f, rest)) :
    readCentralFields directory pos = .ok f ∧ Bytes.u32At? directory pos = some sign ∧
      directory.length - pos = CentralFields.length + rest.length ∧
      rest = directory.drop (pos + CentralFields.length) := by
  rw [← List.length_drop]
  have field16_eq : ∀ offset n rest, (directory.drop pos).drop offset = Bytes.le16 n ++ rest →
      field16 directory pos offset = .ok n := fun _ _ _ => field16_of_drop hb
  have field32_eq : ∀ offset n rest, (directory.drop pos).drop offset = Bytes.le32 n ++ rest →
      field32 directory pos offset = .ok n := fun _ _ _ => field32_of_drop hb
  rw [Bytes.u32At?, ← List.drop_drop]
  generalize directory.drop pos = b at h field16_eq field32_eq
  unfold CentralFields.read? at h
  repeat
    first | rw [Bytes.bind_take16?_eq_some] at h | rw [Bytes.bind_take32?_eq_some] at h
    obtain ⟨_, _, rfl, h⟩ := h
  obtain ⟨rfl, hfields⟩ := Prod.mk.inj (Option.some.inj h)
  obtain ⟨rfl, rfl⟩ := Prod.mk.inj hfields
  refine ⟨?_, ?_, Nat.add_comm _ CentralFields.length, rfl⟩
  · simp only [readCentralFields, field16_eq 4 _ _ rfl, field16_eq 6 _ _ rfl, field16_eq 8 _ _ rfl,
      field16_eq 10 _ _ rfl, field16_eq 12 _ _ rfl, field16_eq 14 _ _ rfl, field32_eq 16 _ _ rfl,
      field32_eq 20 _ _ rfl, field32_eq 24 _ _ rfl, field16_eq 28 _ _ rfl, field16_eq 30 _ _ rfl,
      field16_eq 32 _ _ rfl, field16_eq 34 _ _ rfl, field16_eq 36 _ _ rfl, field32_eq 38 _ _ rfl,
      field32_eq 42 _ _ rfl, ok_bind]
    rfl
  · rw [Bytes.take32?_le32]
    rfl

theorem length_lt_of_texts {f : CentralFields} (h : f.texts? b = none) :
    b.length < f.nameLength.toNat + f.extraLength.toNat + f.commentLength.toNat := by
  refine Nat.lt_of_not_le fun hle => ?_
  have hsome : f.texts? b = some (⟨b.take f.nameLength.toNat,
      (b.drop f.nameLength.toNat).take f.extraLength.toNat,
      ((b.drop f.nameLength.toNat).drop f.extraLength.toNat).take f.commentLength.toNat⟩,
      ((b.drop f.nameLength.toNat).drop f.extraLength.toNat).drop f.commentLength.toNat) := by
    refine CentralFields.texts?_eq_some.mpr ⟨⟨?_, ?_, ?_⟩, ?_⟩
    · rw [List.length_take]
      omega
    · rw [List.length_take, List.length_drop]
      omega
    · rw [List.length_take, List.length_drop, List.length_drop]
      omega
    · simp only [List.take_append_drop]
  rw [h] at hsome
  exact nomatch hsome

/-- The texts of a header are the slices between the places where they start. -/
theorem slices_of_texts {f : CentralFields} {t : CentralFields.Texts} (hpos : pos ≤ directory.length)
    (h : f.texts? (directory.drop pos) = some (t, rest)) :
    pos + f.nameLength.toNat + f.extraLength.toNat + f.commentLength.toNat ≤ directory.length ∧
      slice directory pos (pos + f.nameLength.toNat) = .ok t.rawName ∧
      slice directory (pos + f.nameLength.toNat) (pos + f.nameLength.toNat + f.extraLength.toNat) =
        .ok t.extra ∧
      slice directory (pos + f.nameLength.toNat + f.extraLength.toNat)
        (pos + f.nameLength.toNat + f.extraLength.toNat + f.commentLength.toNat) = .ok t.comment := by
  obtain ⟨⟨hn, he, hc⟩, hb⟩ := CentralFields.texts?_eq_some.mp h
  have hlength := congrArg List.length hb
  simp only [List.length_drop, List.length_append] at hlength
  have hname := @slice_of_drop directory [] t.rawName _ pos hpos hb
  have hextra := slice_of_drop hpos hb
  have hcomment := @slice_of_drop directory (t.rawName ++ t.extra) t.comment rest pos hpos
    (by rw [hb, List.append_assoc])
  rw [List.length_append, ← Nat.add_assoc] at hcomment
  rw [hn, he, hc]
  exact ⟨by omega, hname, hextra, hcomment⟩

/-- The machine reads the header that the definition reads at the front of the bytes that are left. -/
theorem parseCentral_eq (hb : directory.length < lengthBound) (hpos : pos ≤ directory.length)
    (hstart : start < 4294967296) :
    parseCentral directory pos start index =
      answer ((Entry.parse (directory.drop pos) (start + pos) index).map fun p =>
        (p.1, pos + p.1.centralLength)) := by
  have hword := wordBound_eq
  have hbound := lengthBound_eq
  have hfixed : CentralFields.length = 46 := rfl
  have hoffset : add start pos = .ok (start + pos) := add_eq (by omega)
  cases hread : CentralFields.read? (directory.drop pos) with
  | none =>
    have hshort : directory.length - pos < CentralFields.length :=
      List.length_drop ▸ length_lt_of_readCentral hread
    simp only [parseCentral, Entry.parse, hread, hoffset, lift_bind, refuse, hshort, if_true, answer_error_bind]
    rfl
  | some r =>
    obtain ⟨sign, f, rest⟩ := r
    obtain ⟨hfields, hsign, hlength, rfl⟩ := readCentralFields_eq hb hread
    have hlong : ¬ directory.length - pos < CentralFields.length := by omega
    have hn := f.nameLength.toNat_lt
    have he := f.extraLength.toNat_lt
    have hc := f.commentLength.toNat_lt
    have h₁ : add pos CentralFields.length = .ok (pos + CentralFields.length) := add_eq (by omega)
    have h₂ : add (pos + CentralFields.length) f.nameLength.toNat = .ok _ := add_eq (by omega)
    have h₃ : add (pos + CentralFields.length + f.nameLength.toNat) f.extraLength.toNat = .ok _ :=
      add_eq (by omega)
    have h₄ : add (pos + CentralFields.length + f.nameLength.toNat + f.extraLength.toNat)
      f.commentLength.toNat = .ok _ := add_eq (by omega)
    simp only [parseCentral, Entry.parse, hread, hoffset, lift_bind, refuse, hlong, if_false, answer_ok_bind,
      u32At_eq hb, hsign, hfields, h₁, h₂, h₃, h₄]
    by_cases hs : sign = CentralFields.signature
    case neg =>
      simp only [ne_eq, Option.some.injEq, hs, not_false_eq_true, if_true, answer_error_bind]
      rfl
    simp only [ne_eq, hs, not_true_eq_false, if_false, answer_ok_bind]
    cases htexts : f.texts? (directory.drop (pos + CentralFields.length)) with
    | none =>
      have hover : directory.length < pos + CentralFields.length + f.nameLength.toNat +
          f.extraLength.toNat + f.commentLength.toNat := by
        have hlt := length_lt_of_texts htexts
        rw [List.length_drop] at hlt
        omega
      simp only [hover, if_true, answer_error_bind]
      rfl
    | some r =>
      obtain ⟨t, rest⟩ := r
      obtain ⟨hstop, hname, hextra, hcomment⟩ := slices_of_texts (by omega) htexts
      obtain ⟨hm, -⟩ := CentralFields.texts?_eq_some.mp htexts
      have hover := Nat.not_lt.mpr hstop
      simp only [hover, if_false, answer_ok_bind]
      by_cases hzip64 : f.isZip64
      · simp only [hzip64, if_true, answer_error_bind]
        rfl
      by_cases hflags : f.flags &&& Entry.encryptedFlag = 0
      case neg =>
        simp only [hzip64, hflags, not_false_eq_true, if_true, Bool.false_eq_true, if_false, answer_ok_bind,
          answer_error_bind]
        rfl
      simp only [hzip64, hflags, not_true_eq_false, Bool.false_eq_true, if_false, answer_ok_bind, hname,
        lift_bind]
      cases EntryName.ofString (Text.ofUtf8Lossy t.rawName) with
      | error fault => rfl
      | ok name =>
        have hnext : pos + CentralFields.length + f.nameLength.toNat + f.extraLength.toNat +
            f.commentLength.toNat = pos + (Entry.ofFields f t name index).centralLength := by
          rw [hm.rawName, hm.extra, hm.comment]
          simp only [Entry.centralLength, Entry.ofFields]
          omega
        simp only [hextra, hcomment, lift_bind]
        rw [hnext]
        rfl

theorem next_of_parse {e : Entry} {offset : Nat} (hpos : pos ≤ directory.length)
    (h : Entry.parse (directory.drop pos) offset index = .ok (e, rest)) :
    pos + e.centralLength ≤ directory.length ∧ rest = directory.drop (pos + e.centralLength) := by
  obtain ⟨-, header, hdrop, hheader⟩ := Entry.readFrom_of_parse h
  have hlength := congrArg List.length hdrop
  rw [List.length_drop, List.length_append, hheader.length] at hlength
  refine ⟨by omega, ?_⟩
  rw [← hheader.length, ← List.drop_drop, hdrop, List.drop_left]

theorem readEntries_eq (hb : directory.length < lengthBound) (hstart : start < 4294967296) {left : Nat}
    (hpos : pos ≤ directory.length) (entries : Array Entry) :
    readEntries directory start left pos entries =
      answer (Archive.readDirectory start left (start + pos) (directory.drop pos) entries) := by
  have hword := wordBound_eq
  have hbound := lengthBound_eq
  induction left generalizing pos entries with
  | zero => rfl
  | succ left ih =>
    have hoffset : add start pos = .ok (start + pos) := add_eq (by omega)
    rw [readEntries, Archive.readDirectory, parseCentral_eq hb hpos hstart]
    cases hparse : Entry.parse (directory.drop pos) (start + pos) entries.size with
    | error e => rfl
    | ok r =>
      obtain ⟨e, rest⟩ := r
      obtain ⟨hnext, rfl⟩ := next_of_parse hpos hparse
      simp only [Except.map, answer_ok_bind]
      by_cases hinto : start ≤ e.localOffset.toNat
      · simp only [hinto, if_true, hoffset, lift_bind]
        rfl
      · simp only [hinto, if_false]
        rw [ih hnext, Nat.add_assoc]

/-! ## Opening -/

theorem takeExact?_drop {n : Nat} (h : pos + n ≤ b.length) :
    Bytes.takeExact? n (b.drop pos) = some ((b.drop pos).take n, (b.drop pos).drop n) := by
  rw [Bytes.takeExact?_eq, List.length_drop, if_pos (by omega)]

theorem rest_of_takeExact? {n : Nat} {part : Bytes} (h : Bytes.takeExact? n b = some (part, rest)) :
    rest = b.drop n := by
  obtain ⟨rfl, rfl⟩ := Bytes.takeExact?_eq_some.mp h
  exact (List.drop_left).symm

/-- The machine opens what the definition opens, or fails as it does, wherever the stream stands. -/
theorem openArchive_answers (hb : b.length < lengthBound) (pos : Nat) :
    Answers (openArchive b) pos (Archive.parse b) := by
  have hword := wordBound_eq
  have hbound := lengthBound_eq
  have hmax : EndRecord.maxLength = 65557 := rfl
  have hmin : min b.length EndRecord.maxLength ≤ b.length := Nat.min_le_left _ _
  have htail : EndRecord.tailStart b.length + min b.length EndRecord.maxLength = b.length := by
    rw [EndRecord.tailStart]
    omega
  have hwhole : (b.drop (EndRecord.tailStart b.length)).take (min b.length EndRecord.maxLength) =
      b.drop (EndRecord.tailStart b.length) :=
    List.take_of_length_le (by rw [List.length_drop]; omega)
  have hfindEq : find (b.drop (EndRecord.tailStart b.length)) (EndRecord.tailStart b.length) = _ :=
    find_eq (by rw [List.length_drop]; omega) (by rw [List.length_drop]; omega)
  simp only [openArchive, Archive.parse, sub_eq hmin, lift_checked_bind]
  refine .seek (.readExact (by omega) (by rw [← EndRecord.tailStart]; omega) (takeExact?_drop htail.le) ?_)
  rw [← EndRecord.tailStart, hwhole, hfindEq]
  cases hfind : EndRecord.find (b.drop (EndRecord.tailStart b.length)) (EndRecord.tailStart b.length) with
  | error e => exact .bind_error (.lift _)
  | ok found =>
    obtain ⟨record, recordStart⟩ := found
    have hle := EndRecord.le_of_find hfind
    rw [List.length_drop] at hle
    have hdirectory := record.directoryOffset.toNat_lt
    have hsize := record.directorySize.toNat_lt
    have hcount := record.count.toNat_lt
    have hstop : add record.directoryOffset.toNat record.directorySize.toNat = .ok _ := add_eq (by omega)
    simp only [lift_answer_ok_bind, hstop, lift_checked_bind, refuse, ok_bind]
    by_cases hover : recordStart < record.directoryOffset.toNat + record.directorySize.toNat
    · simp only [hover, if_true]
      exact .bind_error (.lift _)
    have hwithin : record.directoryOffset.toNat + record.directorySize.toNat ≤ b.length := by omega
    simp only [hover, if_false, lift_answer_ok_bind]
    refine .seek (.readExact (by omega) (by omega) (takeExact?_drop hwithin) ?_)
    have hentries : readEntries ((b.drop record.directoryOffset.toNat).take record.directorySize.toNat)
        record.directoryOffset.toNat record.count.toNat 0 #[] = _ :=
      readEntries_eq (by rw [List.length_take, List.length_drop]; omega) hdirectory (Nat.zero_le _) #[]
    have hroom : allocate (elementSize * record.count.toNat) = .ok () :=
      allocate_eq (by rw [elementSize]; omega)
    rw [hroom, lift_checked_bind, hentries, List.drop_zero, Nat.add_zero]
    cases Archive.readDirectory record.directoryOffset.toNat record.count.toNat record.directoryOffset.toNat
      ((b.drop record.directoryOffset.toNat).take record.directorySize.toNat) #[] with
    | error e => exact .bind_error (.lift _)
    | ok entries => exact .pure _

/-! ## Payloads -/

theorem exists_readLocal (hlength : 30 ≤ b.length) :
    ∃ sign f rest, LocalFields.read? b = some (sign, f, rest) := by
  have hsome : (LocalFields.read? b).isSome := by
    unfold LocalFields.read?
    iterate 11
      first
        | refine Bytes.isSome_bind_take32? hlength (by decide) fun _ _ hlength => ?_
        | refine Bytes.isSome_bind_take16? hlength (by decide) fun _ _ hlength => ?_
    rfl
  obtain ⟨⟨sign, f, rest⟩, hread⟩ := Option.isSome_iff_exists.mp hsome
  exact ⟨sign, f, rest, hread⟩

theorem readLocal_eq {f : LocalFields} (h : LocalFields.read? b = some (sign, f, rest)) :
    u32At (b.take LocalFields.length) 0 = .ok (some sign) ∧
      u16At (b.take LocalFields.length) 26 = .ok (some f.nameLength) ∧
      u16At (b.take LocalFields.length) 28 = .ok (some f.extraLength) := by
  have hb : (b.take LocalFields.length).length < lengthBound :=
    Nat.lt_of_le_of_lt (List.length_take_le _ _) (by decide)
  have u16At_eq : ∀ pos n rest, (b.take LocalFields.length).drop pos = Bytes.le16 n ++ rest →
      u16At (b.take LocalFields.length) pos = .ok (some n) := fun _ _ _ => u16At_of_drop hb
  have u32At_eq : ∀ pos n rest, (b.take LocalFields.length).drop pos = Bytes.le32 n ++ rest →
      u32At (b.take LocalFields.length) pos = .ok (some n) := fun _ _ _ => u32At_of_drop hb
  clear hb
  unfold LocalFields.read? at h
  repeat
    first | rw [Bytes.bind_take16?_eq_some] at h | rw [Bytes.bind_take32?_eq_some] at h
    obtain ⟨_, _, rfl, h⟩ := h
  obtain ⟨rfl, hfields⟩ := Prod.mk.inj (Option.some.inj h)
  obtain ⟨rfl, rfl⟩ := Prod.mk.inj hfields
  exact ⟨u32At_eq 0 _ _ rfl, u16At_eq 26 _ _ rfl, u16At_eq 28 _ _ rfl⟩

theorem parseLocal_eq {offset : Nat} (h : LocalFields.length ≤ b.length) :
    parseLocal (b.take LocalFields.length) offset =
      answer ((LocalFields.parse b offset).map fun p => (p.1.nameLength.toNat, p.1.extraLength.toNat)) := by
  obtain ⟨sign, f, rest, hread⟩ := exists_readLocal h
  obtain ⟨hsign, hname, hextra⟩ := readLocal_eq hread
  have hlong : ¬ (b.take LocalFields.length).length < LocalFields.length := by
    rw [List.length_take]
    omega
  simp only [parseLocal, LocalFields.parse, hread, hsign, hname, hextra, lift_bind, refuse, hlong, false_or, ne_eq,
    Option.some.injEq]
  by_cases hs : sign = LocalFields.signature
  · simp only [hs, not_true_eq_false, if_false, if_true, answer_ok_bind]
    rfl
  · simp only [hs, not_false_eq_true, if_true, if_false, answer_error_bind]
    rfl

theorem rest_of_parseLocal {f : LocalFields} {offset : Nat} (h : LocalFields.parse b offset = .ok (f, rest)) :
    rest = b.drop LocalFields.length := by
  rw [LocalFields.parse_eq_ok_iff.mp h]
  exact (List.drop_left' (LocalFields.length_toBytes f)).symm

theorem readRaw_answers (a : Archive) (b : Bytes) (index pos : Nat) :
    Answers (readRaw a b index) pos (a.readRaw b index) := by
  have hword := wordBound_eq
  have hbound := lengthBound_eq
  have hfixed : LocalFields.length = 30 := rfl
  unfold readRaw Archive.readRaw
  cases hentry : a.entries[index]? with
  | none => exact .throw _
  | some e =>
    have hstart := e.localOffset.toNat_lt
    have hsize := e.packedSize.toNat_lt
    dsimp only
    generalize e.localOffset.toNat = start at hstart ⊢
    refine .seek ?_
    by_cases hlong : LocalFields.length ≤ (b.drop start).length
    case neg =>
      have hcut : Bytes.takeExact? LocalFields.length (b.drop start) = none := by
        rw [Bytes.takeExact?_eq, if_neg hlong]
      simp only [hcut, Option.isNone_none, if_true]
      exact .readExact_short (by omega) (by omega) hcut
    have hcut : Bytes.takeExact? LocalFields.length (b.drop start) =
        some ((b.drop start).take LocalFields.length, (b.drop start).drop LocalFields.length) := by
      rw [Bytes.takeExact?_eq, if_pos hlong]
    simp only [hcut, Option.isNone_some, Bool.false_eq_true, if_false]
    refine .readExact (by omega) (by omega) hcut ?_
    rw [parseLocal_eq hlong]
    cases hparse : LocalFields.parse (b.drop start) start with
    | error fault => exact .bind_error (.lift _)
    | ok r =>
      obtain ⟨f, rest⟩ := r
      obtain rfl : rest = (b.drop start).drop LocalFields.length := rest_of_parseLocal hparse
      have hn := f.nameLength.toNat_lt
      have he := f.extraLength.toNat_lt
      have h₁ : add LocalFields.length f.nameLength.toNat = .ok _ := add_eq (by omega)
      have h₂ : add (LocalFields.length + f.nameLength.toNat) f.extraLength.toNat = .ok _ := add_eq (by omega)
      have h₃ : add start (LocalFields.length + f.nameLength.toNat + f.extraLength.toNat) = .ok _ :=
        add_eq (by omega)
      have h₄ : add (start + (LocalFields.length + f.nameLength.toNat + f.extraLength.toNat))
        e.packedSize.toNat = .ok _ := add_eq (by omega)
      simp only [Except.map, lift_answer_ok_bind, h₁, h₂, h₃, h₄, lift_checked_bind, refuse, ok_bind]
      by_cases hpast : a.length < start + (LocalFields.length + f.nameLength.toNat + f.extraLength.toNat) +
          e.packedSize.toNat
      · simp only [hpast, if_true]
        exact .bind_error (.lift _)
      simp only [hpast, if_false, lift_answer_ok_bind]
      refine .skip (by omega) ?_
      rw [List.drop_drop, List.drop_drop, ← Nat.add_assoc]
      cases hextra : Bytes.takeExact? f.extraLength.toNat
        (b.drop (start + LocalFields.length + f.nameLength.toNat)) with
      | none => exact .readExact_short (by omega) (by omega) hextra
      | some r =>
        obtain ⟨localExtra, rest⟩ := r
        obtain rfl := rest_of_takeExact? hextra
        refine .readExact (by omega) (by omega) hextra ?_
        rw [List.drop_drop]
        dsimp only
        cases hdata : Bytes.takeExact? e.packedSize.toNat
          (b.drop (start + LocalFields.length + f.nameLength.toNat + f.extraLength.toNat)) with
        | none => exact .readExact_short (by omega) (by omega) hdata
        | some r => exact .readExact (by omega) (by omega) hdata (.pure _)

theorem decompress_eq (e : Entry) (raw : Bytes) : decompress e raw = answer (e.unpack raw) := by
  have hroom : allocate (min (e.size.toNat + 1) unpackRoom) = .ok () :=
    allocate_eq (Nat.lt_of_le_of_lt (Nat.min_le_right _ _) (by decide))
  unfold decompress
  split
  · simp [hroom]
  · rfl

theorem read_answers (a : Archive) (b : Bytes) (index pos : Nat) :
    Answers (read a b index) pos (a.read b index) := by
  have hraw := readRaw_answers a b index
  unfold read Archive.read
  cases hentry : a.entries[index]? with
  | none =>
    have hnone : a.readRaw b index = .error (.invalidFormat (.noSuchEntry index)) := by
      rw [Archive.readRaw, hentry]
      rfl
    exact .bind_error (hnone ▸ hraw pos)
  | some e =>
    refine (hraw pos).bind_of_forall fun raw _ pos' => ?_
    rw [fetch_some, lift_checked_bind, decompress_eq]
    exact .lift _

/-! ## Calls in any order -/

/-- A call on an archive. -/
inductive Query where
  | raw (index : Nat)
  | contents (index : Nat)
deriving DecidableEq, Repr

inductive Reply where
  | raw (entry : RawEntry)
  | contents (data : Bytes)
deriving DecidableEq, Repr

def Query.run (a : Archive) (b : Bytes) : Query → Reading Error Reply
  | .raw index => .raw <$> readRaw a b index
  | .contents index => .contents <$> read a b index

def Query.reply (a : Archive) (b : Bytes) : Query → Except Error Reply
  | .raw index => .raw <$> a.readRaw b index
  | .contents index => .contents <$> a.read b index

/-- Calls one after another, whether they fail or not, with the stream as the call before has left it. -/
def runAll (a : Archive) (b : Bytes) : List Query → Nat → Checked (List (Except Error Reply))
  | [], _ => return []
  | q :: qs, pos => do
    let (r, pos) ← (q.run a b).run.run pos
    let rs ← runAll a b qs pos
    return r :: rs

theorem Query.answers (a : Archive) (b : Bytes) (q : Query) (pos : Nat) :
    Answers (q.run a b) pos (q.reply a b) := by
  cases q with
  | raw index => exact (readRaw_answers a b index pos).bind_of_forall fun _ _ _ => .pure _
  | contents index => exact (read_answers a b index pos).bind_of_forall fun _ _ _ => .pure _

theorem runAll_eq (a : Archive) (b : Bytes) (qs : List Query) (pos : Nat) :
    runAll a b qs pos = .ok (qs.map (Query.reply a b)) := by
  induction qs generalizing pos with
  | nil => rfl
  | cons q qs ih =>
    obtain ⟨pos', hq⟩ := q.answers a b pos
    simp only [runAll, hq, ok_bind, ih]
    rfl

end SourceLabel.Machine
