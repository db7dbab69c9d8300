import SourceLabel.Proofs.Zip.Directory

/-!
# Headers written back

All that a directory header says is kept in the entry that is read from it, in the form in which it was written:
the name as bytes, whether they are text or not, and the extra field and the comment whatever they are. So the
header that is written for the entry is the header that was read. Two things are not kept. The flag that says that
sizes follow the payload is dropped, and the number of the file in which the entry begins is always zero.
-/
namespace SourceLabel.Zip

/-- The bytes of a directory header without the flag for sizes after the payload and without a file number. -/
def writtenBack (header : Bytes) : Bytes :=
  ((header.modify 8 (· &&& 0xF7)).set 34 0).set 35 0

@[simp] theorem length_writtenBack (header : Bytes) : (writtenBack header).length = header.length := by
  rw [writtenBack, List.length_set, List.length_set, List.length_modify]

/-- The dropped flag lies in the low byte, which is written first. -/
theorem le16_dropDescriptor (flags : UInt16) :
    Bytes.le16 (flags &&& ~~~Entry.descriptorFlag) =
      [UInt8.ofNat flags.toNat &&& 0xF7, UInt8.ofNat (flags.toNat / 256)] := by
  have hkept : (flags &&& ~~~Entry.descriptorFlag).toNat = flags.toNat &&& 0xFFF7 := UInt16.toNat_and _ _
  have hlow : UInt8.ofNat (flags.toNat &&& 0xFFF7) = UInt8.ofNat flags.toNat &&& 0xF7 := by
    apply UInt8.toNat_inj.mp
    rw [UInt8.toNat_and, UInt8.toNat_ofNat', UInt8.toNat_ofNat']
    exact Nat.and_mod_two_pow
  have hhigh : (flags.toNat &&& 0xFFF7) / 256 = flags.toNat / 256 % 256 := by
    have hdiv := Nat.and_div_two_pow (a := flags.toNat) (b := 0xFFF7) (n := 8)
    exact hdiv.trans (Nat.and_two_pow_sub_one_eq_mod _ 8)
  have hbyte : UInt8.ofNat (flags.toNat / 256 % 256) = UInt8.ofNat (flags.toNat / 256) := by
    apply UInt8.toNat_inj.mp
    rw [UInt8.toNat_ofNat', UInt8.toNat_ofNat']
    exact Nat.mod_mod _ _
  rw [Bytes.le16, hkept, hlow, hhigh, hbyte]

namespace CentralFields

/-- The fields that are written for an entry with these fields. -/
def writtenBack (f : CentralFields) : CentralFields :=
  { f with flags := f.flags &&& ~~~Entry.descriptorFlag, disk := 0 }

theorem header_writtenBack (f : CentralFields) (t : Texts) :
    f.writtenBack.header t = Zip.writtenBack (f.header t) := by
  rw [header, toBytes]
  simp only [writtenBack, le16_dropDescriptor]
  rfl

end CentralFields

namespace Entry

variable {cd rest : Bytes} {pos offset index : Nat} {e : Entry}

theorem centralHeader_ofFields {f : CentralFields} {t : CentralFields.Texts} (hm : f.Measures t) (name : EntryName)
    (index : Nat) : (ofFields f t name index).centralHeader f.localOffset = f.writtenBack.header t := by
  have hfields : (ofFields f t name index).centralFields f.localOffset = f.writtenBack := by
    simp only [centralFields, ofFields, ← hm.rawName, ← hm.extra, ← hm.comment, UInt16.ofNat_toNat]
    rfl
  rw [centralHeader, hfields]
  rfl

/-- What is written for an entry that was read from a directory is the part of the directory that it was read
from, but for the flag that is dropped and the file number. -/
theorem centralHeader_of_parse (h : parse (cd.drop pos) offset index = .ok (e, rest)) :
    pos + e.centralLength ≤ cd.length ∧ rest = cd.drop (pos + e.centralLength) ∧
      (e.centralHeader e.localOffset).length = e.centralLength ∧
      e.centralHeader e.localOffset = writtenBack ((cd.drop pos).take e.centralLength) := by
  obtain ⟨f, b', t, name, hread, htexts, -, -, -, rfl⟩ := parse_eq_ok_iff.mp h
  obtain ⟨hm, hdrop⟩ := CentralFields.header_of_reads hread htexts
  have hlength : (f.header t).length = (ofFields f t name index).centralLength := CentralFields.length_header f t
  have hcd := congrArg List.length hdrop
  rw [List.length_drop, List.length_append] at hcd
  have hfixed : 0 < (ofFields f t name index).centralLength := by
    have hcentral : CentralFields.length = 46 := rfl
    rw [centralLength]
    omega
  have hfront : (cd.drop pos).take (ofFields f t name index).centralLength = f.header t := by
    rw [hdrop, ← hlength, List.take_left]
  have hwritten : (ofFields f t name index).centralHeader f.localOffset = writtenBack (f.header t) :=
    (centralHeader_ofFields hm name index).trans (CentralFields.header_writtenBack f t)
  refine ⟨by omega, ?_, ?_, hfront ▸ hwritten⟩
  · rw [← List.drop_drop, hdrop, ← hlength, List.drop_left]
  · exact (congrArg List.length hwritten).trans ((length_writtenBack _).trans hlength)

/-- A header with everything in it that is easily lost. -/
def unusualFields : CentralFields :=
  ⟨0x031E, 45, 0x080E, 12, 0x6A21, 0x58CF, 0xDEADBEEF, 10, 20, 2, 3, 1, 7, 1, 0x81A40000, 1234⟩

/-- The name is not text, and the comment is the beginning of a header. -/
def unusualTexts : CentralFields.Texts :=
  ⟨[0xC3, 0x28], [0xFE, 0xCA, 0x00], [0x50]⟩

/-- A directory that has something before and behind that header. -/
def unusualDirectory : Bytes :=
  [0x50, 0x4B] ++ (unusualFields.header unusualTexts ++ [0x01, 0x02])

theorem centralHeader_of_parse_unusual :
    ∃ e, parse (unusualDirectory.drop 2) 100 7 = .ok (e, [0x01, 0x02]) ∧
      e.centralHeader e.localOffset = writtenBack (unusualFields.header unusualTexts) ∧
      e.centralHeader e.localOffset ≠ unusualFields.header unusualTexts := by
  have hparse : parse (unusualDirectory.drop 2) 100 7 = .ok
      (ofFields unusualFields unusualTexts ⟨"\uFFFD(", by decide, by decide⟩ 7, [0x01, 0x02]) := by cbv
  obtain ⟨-, -, -, hwritten⟩ := centralHeader_of_parse hparse
  exact ⟨_, hparse, hwritten, by rw [hwritten]; decide⟩

end Entry
end SourceLabel.Zip
