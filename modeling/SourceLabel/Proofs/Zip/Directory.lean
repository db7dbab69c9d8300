import SourceLabel.Proofs.Zip.Finding
import SourceLabel.Proofs.Zip.Opening

/-!
# What is read of a directory

The headers that an end record counts are read from the beginning of the directory, one right behind the
other, and whatever comes after them is not looked at. A directory that holds fewer headers than are counted
is refused. One that holds more is not: the headers that are left over are passed over without a word, and
so are their entries. The headers that were read fill the directory exactly if it consists of as many headers
as are counted.
-/
namespace SourceLabel.Zip

namespace CentralFields

theorem eq_toBytes_of_read? {b rest : Bytes} {f : CentralFields} (h : read? b = some (signature, f, rest)) :
    b = f.toBytes ++ rest := by
  unfold read? at h
  repeat
    first | rw [Bytes.bind_take16?_eq_some] at h | rw [Bytes.bind_take32?_eq_some] at h
    obtain ⟨_, _, rfl, h⟩ := h
  obtain ⟨rfl, hfields⟩ := Prod.mk.inj (Option.some.inj h)
  obtain ⟨rfl, rfl⟩ := Prod.mk.inj hfields
  simp only [toBytes, List.append_assoc]

/-- The texts are as long as the fields say. -/
structure Measures (f : CentralFields) (t : Texts) : Prop where
  rawName : f.nameLength.toNat = t.rawName.length
  extra : f.extraLength.toNat = t.extra.length
  comment : f.commentLength.toNat = t.comment.length

theorem texts?_eq_some {f : CentralFields} {t : Texts} {b rest : Bytes} :
    f.texts? b = some (t, rest) ↔ f.Measures t ∧ b = t.rawName ++ (t.extra ++ (t.comment ++ rest)) := by
  constructor
  · intro h
    simp only [texts?, Option.bind_eq_bind, Option.bind_eq_some_iff, Prod.exists,
      Bytes.takeExact?_eq_some] at h
    obtain ⟨_, _, ⟨hn, rfl⟩, _, _, ⟨he, rfl⟩, _, _, ⟨hc, rfl⟩, h⟩ := h
    obtain ⟨rfl, rfl⟩ := Prod.mk.inj (Option.some.inj h)
    exact ⟨⟨hn.symm, he.symm, hc.symm⟩, rfl⟩
  · rintro ⟨⟨hn, he, hc⟩, rfl⟩
    exact texts?_append hn he hc rest

def header (f : CentralFields) (t : Texts) : Bytes :=
  f.toBytes ++ (t.rawName ++ (t.extra ++ t.comment))

@[simp] theorem length_header (f : CentralFields) (t : Texts) :
    (f.header t).length = length + t.rawName.length + t.extra.length + t.comment.length := by
  simp only [header, List.length_append, length_toBytes]
  omega

theorem read?_header (f : CentralFields) (t : Texts) (rest : Bytes) :
    read? (f.header t ++ rest) = some (signature, f, t.rawName ++ (t.extra ++ (t.comment ++ rest))) := by
  rw [header]
  simp only [List.append_assoc]
  exact read?_toBytes f _

theorem header_of_reads {f : CentralFields} {t : Texts} {b b' rest : Bytes}
    (hread : read? b = some (signature, f, b')) (htexts : f.texts? b' = some (t, rest)) :
    f.Measures t ∧ b = f.header t ++ rest := by
  obtain ⟨hm, rfl⟩ := texts?_eq_some.mp htexts
  refine ⟨hm, (eq_toBytes_of_read? hread).trans ?_⟩
  simp only [header, List.append_assoc]

end CentralFields

/-! ## Headers end to end -/

/-- The bytes are one header: fixed fields, and as much text behind them as they say. -/
def IsHeader (h : Bytes) : Prop :=
  ∃ (f : CentralFields) (t : CentralFields.Texts), f.Measures t ∧ h = f.header t

theorem IsHeader.ne_nil {h : Bytes} (hh : IsHeader h) : h ≠ [] := by
  obtain ⟨f, t, -, rfl⟩ := hh
  intro he
  have hl := congrArg List.length he
  have hfixed : CentralFields.length = 46 := rfl
  rw [CentralFields.length_header, List.length_nil] at hl
  omega

theorem IsHeader.unique {h h' rest rest' : Bytes} (hh : IsHeader h) (hh' : IsHeader h')
    (he : h ++ rest = h' ++ rest') : h = h' ∧ rest = rest' := by
  obtain ⟨f, t, hm, rfl⟩ := hh
  obtain ⟨f', t', hm', rfl⟩ := hh'
  have hread := CentralFields.read?_header f t rest
  rw [he, CentralFields.read?_header f' t' rest'] at hread
  obtain ⟨-, hfields⟩ := Prod.mk.inj (Option.some.inj hread)
  obtain ⟨rfl, htexts⟩ := Prod.mk.inj hfields
  have hcut := CentralFields.texts?_append hm'.rawName hm'.extra hm'.comment rest'
  rw [htexts, CentralFields.texts?_append hm.rawName hm.extra hm.comment rest] at hcut
  obtain ⟨rfl, rfl⟩ := Prod.mk.inj (Option.some.inj hcut)
  exact ⟨rfl, rfl⟩

/-- The bytes consist of `n` headers, one right behind the other. -/
def Fills (n : Nat) (directory : Bytes) : Prop :=
  ∃ headers : List Bytes, headers.length = n ∧ (∀ h ∈ headers, IsHeader h) ∧ directory = headers.flatten

/-- Of headers end to end there are no fewer than are found at the beginning. -/
theorem length_le_of_flatten {headers all : List Bytes} {rest : Bytes} (hheaders : ∀ h ∈ headers, IsHeader h)
    (hall : ∀ h ∈ all, IsHeader h) (he : headers.flatten ++ rest = all.flatten) :
    headers.length ≤ all.length ∧ (headers.length = all.length → rest = []) := by
  induction headers generalizing all with
  | nil =>
    refine ⟨Nat.zero_le _, fun hl => ?_⟩
    rw [List.eq_nil_of_length_eq_zero hl.symm] at he
    exact he
  | cons h headers ih =>
    obtain ⟨hh, hheaders⟩ := List.forall_mem_cons.mp hheaders
    cases all with
    | nil =>
      have hnil : h = [] := (List.append_eq_nil_iff.mp (List.append_eq_nil_iff.mp he).1).1
      exact absurd hnil hh.ne_nil
    | cons h' all =>
      obtain ⟨hh', hall⟩ := List.forall_mem_cons.mp hall
      rw [List.flatten_cons, List.flatten_cons, List.append_assoc] at he
      obtain ⟨-, hrest⟩ := hh.unique hh' he
      obtain ⟨hle, hnil⟩ := ih hheaders hall hrest
      exact ⟨Nat.succ_le_succ hle, fun hl => hnil (Nat.succ.inj hl)⟩

/-! ## Headers of entries -/

namespace Entry

/-- The bytes are the header that the entry is read from, whatever follows them. -/
structure ReadFrom (e : Entry) (h : Bytes) : Prop where
  isHeader : IsHeader h
  length : h.length = e.centralLength
  parse : ∀ rest offset, parse (h ++ rest) offset e.index = .ok (e, rest)

theorem isHeader_centralHeader {e : Entry} (h : Writer.fits e) (localOffset : UInt32) :
    IsHeader (e.centralHeader localOffset) := by
  obtain ⟨hn, -, he, hc⟩ := Writer.fits_iff.mp h
  exact ⟨e.centralFields localOffset, ⟨e.rawName, e.extra, e.comment⟩,
    ⟨toNat_lengthField hn, toNat_lengthField he, toNat_lengthField hc⟩, rfl⟩

theorem readFrom_of_parse {e : Entry} {b rest : Bytes} {offset index : Nat}
    (h : parse b offset index = .ok (e, rest)) :
    e.index = index ∧ ∃ header, b = header ++ rest ∧ e.ReadFrom header := by
  obtain ⟨f, b', t, name, hread, htexts, hzip64, hflags, hname, rfl⟩ := parse_eq_ok_iff.mp h
  obtain ⟨hm, rfl⟩ := CentralFields.header_of_reads hread htexts
  refine ⟨rfl, f.header t, rfl, ⟨f, t, hm, rfl⟩, CentralFields.length_header f t, fun rest offset => ?_⟩
  exact parse_eq_ok_iff.mpr ⟨f, _, t, name, CentralFields.read?_header f t rest,
    CentralFields.texts?_append hm.rawName hm.extra hm.comment rest, hzip64, hflags, hname, rfl⟩

end Entry

namespace Archive

theorem headers_of_readDirectory {directory left offset : Nat} {b : Bytes} {entries result : Array Entry}
    (h : readDirectory directory left offset b entries = .ok result) :
    ∃ (read : List Entry) (headers : List Bytes) (unread : Bytes), result = entries ++ read ∧ read.length = left ∧
      List.Forall₂ Entry.ReadFrom read headers ∧ b = headers.flatten ++ unread := by
  induction left generalizing offset b entries with
  | zero =>
    obtain rfl := Except.ok.inj h
    exact ⟨[], [], b, Array.appendList_nil.symm, rfl, .nil, rfl⟩
  | succ left ih =>
    unfold readDirectory at h
    split at h
    · exact nomatch h
    next e rest hparse =>
    split at h
    · exact nomatch h
    obtain ⟨-, header, rfl, hheader⟩ := Entry.readFrom_of_parse hparse
    obtain ⟨read, headers, unread, rfl, hlength, hall, rfl⟩ := ih h
    refine ⟨e :: read, header :: headers, unread, Array.appendList_cons.symm, congrArg Nat.succ hlength,
      .cons hheader hall, ?_⟩
    rw [List.flatten_cons, List.append_assoc]

/-- The directory that an end record describes. -/
def directoryBytes (b : Bytes) (record : EndRecord) : Bytes :=
  (b.drop record.directoryOffset.toNat).take record.directorySize.toNat

/-- How much of the directory was read. -/
def headersLength (a : Archive) : Nat :=
  (a.entries.toList.map Entry.centralLength).sum

theorem length_flatten_of_readFrom {read : List Entry} {headers : List Bytes}
    (h : List.Forall₂ Entry.ReadFrom read headers) :
    headers.flatten.length = (read.map Entry.centralLength).sum := by
  induction h with
  | nil => rfl
  | cons hheader _ ih => rw [List.flatten_cons, List.length_append, hheader.length, ih, List.map_cons, List.sum_cons]

theorem isHeader_of_readFrom {read : List Entry} {headers : List Bytes}
    (h : List.Forall₂ Entry.ReadFrom read headers) : ∀ header ∈ headers, IsHeader header := by
  induction h with
  | nil => exact fun _ hm => absurd hm List.not_mem_nil
  | cons hheader _ ih => exact List.forall_mem_cons.mpr ⟨hheader.isHeader, ih⟩

theorem OpenedBy.length_directoryBytes {b : Bytes} {a : Archive} {record : EndRecord} {recordStart : Nat}
    (h : OpenedBy b a record recordStart) : (directoryBytes b record).length = record.directorySize.toNat := by
  have hrecord := EndRecord.le_of_find h.find
  have hstop := h.stop_le
  have hstart : EndRecord.tailStart b.length ≤ b.length := Nat.sub_le _ _
  rw [List.length_drop] at hrecord
  rw [directoryBytes, List.length_take, List.length_drop]
  omega

/-- An archive that could be opened has the entries of as many headers as its end record counts. They are the
headers at the beginning of the directory, which holds no fewer, and they fill it exactly if it consists of as
many. -/
theorem headers_of_parse {b : Bytes} {a : Archive} (h : parse b = .ok a) :
    ∃ record recordStart, OpenedBy b a record recordStart ∧
      ∃ headers unread, directoryBytes b record = headers.flatten ++ unread ∧
        headers.length = record.count.toNat ∧ List.Forall₂ Entry.ReadFrom a.entries.toList headers ∧
        (a.headersLength = record.directorySize.toNat ↔ Fills record.count.toNat (directoryBytes b record)) ∧
        ∀ n, Fills n (directoryBytes b record) → record.count.toNat ≤ n := by
  obtain ⟨record, recordStart, ho⟩ := parse_eq_ok_iff.mp h
  obtain ⟨read, headers, unread, hread, hcount, hall, hdirectory⟩ := headers_of_readDirectory ho.entries
  have hentries : a.entries.toList = read := by
    rw [hread, Array.toList_appendList, List.nil_append]
  have hheaders := isHeader_of_readFrom hall
  have hlength : headers.length = record.count.toNat := hall.length_eq.symm.trans hcount
  have hsize : a.headersLength + unread.length = record.directorySize.toNat := by
    rw [headersLength, hentries, ← length_flatten_of_readFrom hall, ← List.length_append, ← hdirectory]
    exact ho.length_directoryBytes
  refine ⟨record, recordStart, ho, headers, unread, hdirectory, hlength, hentries ▸ hall, ?_, ?_⟩
  · constructor
    · intro hfull
      have hnil : unread = [] := List.eq_nil_of_length_eq_zero (by omega)
      refine ⟨headers, hlength, hheaders, hdirectory.trans ?_⟩
      rw [hnil, List.append_nil]
    · rintro ⟨all, hn, hisHeader, hall'⟩
      have hnil := (length_le_of_flatten hheaders hisHeader (hdirectory.symm.trans hall')).2 (hlength.trans hn.symm)
      rw [hnil, List.length_nil] at hsize
      exact hsize
  · rintro n ⟨all, rfl, hisHeader, hall'⟩
    exact hlength ▸ (length_le_of_flatten hheaders hisHeader (hdirectory.symm.trans hall')).1

def emptyEntry (name : EntryName) (rawName : Bytes) : Entry where
  name
  rawName
  method := .stored

def counted : Entry := emptyEntry ⟨"c", by decide, by decide⟩ [0x63]

def uncounted : Entry := emptyEntry ⟨"d", by decide, by decide⟩ [0x64]

/-- Counts one of the two entries before it. -/
def shortRecord : EndRecord := ⟨1, 94, 62, []⟩

def shortCount : Bytes :=
  counted.localHeader ++ (uncounted.localHeader ++ (counted.centralHeader 0 ++ (uncounted.centralHeader 31 ++
    shortRecord.toBytes)))

def shortRead : Archive :=
  ⟨178, 62, #[counted], []⟩

theorem openedBy_shortCount : OpenedBy shortCount shortRead shortRecord 156 where
  find := by cbv
  stop_le := by decide
  length := by decide +kernel
  directoryOffset := rfl
  comment := rfl
  entries := by cbv

theorem headers_of_parse_shortCount :
    parse shortCount = .ok shortRead ∧
    ∃ record recordStart, OpenedBy shortCount shortRead record recordStart ∧
      ∃ headers unread, directoryBytes shortCount record = headers.flatten ++ unread ∧
        headers.length = record.count.toNat ∧ List.Forall₂ Entry.ReadFrom shortRead.entries.toList headers ∧
        (shortRead.headersLength = record.directorySize.toNat ↔
          Fills record.count.toNat (directoryBytes shortCount record)) ∧
        ∀ n, Fills n (directoryBytes shortCount record) → record.count.toNat ≤ n := by
  have hparse : parse shortCount = .ok shortRead := parse_eq_ok_iff.mpr ⟨shortRecord, 156, openedBy_shortCount⟩
  exact ⟨hparse, headers_of_parse hparse⟩

/-- The directory holds two headers and ends behind them, but one is read, and the archive opens without the
other entry. -/
theorem uncounted_dropped :
    parse shortCount = .ok shortRead ∧ shortRead.entries = #[counted] ∧
      ∃ record recordStart, OpenedBy shortCount shortRead record recordStart ∧
        Fills 2 (directoryBytes shortCount record) ∧ shortRead.headersLength ≠ record.directorySize.toNat := by
  refine ⟨parse_eq_ok_iff.mpr ⟨shortRecord, 156, openedBy_shortCount⟩, rfl, shortRecord, 156,
    openedBy_shortCount, ?_, by decide⟩
  refine ⟨[counted.centralHeader 0, uncounted.centralHeader 31], rfl, ?_, by decide +kernel⟩
  exact List.forall_mem_cons.mpr ⟨Entry.isHeader_centralHeader rfl 0,
    List.forall_mem_singleton.mpr (Entry.isHeader_centralHeader rfl 31)⟩

end Archive
end SourceLabel.Zip
