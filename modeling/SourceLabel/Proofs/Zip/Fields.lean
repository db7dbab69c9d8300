import SourceLabel.Proofs.Bytes
import SourceLabel.Zip.Writer

/-!
# Headers read back

The fixed fields of each header are read back whatever follows them, and the parts of no fixed length are
cut off behind them. An entry is read from its directory header, unless a field of it has a value that
readers refuse.
-/
namespace SourceLabel.Zip

namespace LocalFields

@[simp] theorem length_toBytes (f : LocalFields) : f.toBytes.length = length := rfl

@[simp] theorem read?_toBytes (f : LocalFields) (rest : Bytes) :
    read? (f.toBytes ++ rest) = some (signature, f, rest) := by
  rw [toBytes]
  simp only [List.append_assoc]
  apply Bytes.bind_take32?_le32
  repeat first | apply Bytes.bind_take16?_le16 | apply Bytes.bind_take32?_le32
  rfl

theorem parse_toBytes (f : LocalFields) (rest : Bytes) (offset : Nat) :
    parse (f.toBytes ++ rest) offset = .ok (f, rest) := by
  simp [parse]

theorem parse_eq_ok_iff {b rest : Bytes} {f : LocalFields} {offset : Nat} :
    parse b offset = .ok (f, rest) ↔ b = f.toBytes ++ rest := by
  constructor
  · intro h
    unfold parse at h
    split at h
    · exact nomatch h
    next sign f' rest' hread =>
    split at h
    case isFalse => exact nomatch h
    next hsign =>
    obtain ⟨rfl, rfl⟩ := Prod.mk.inj (Except.ok.inj h)
    subst hsign
    unfold read? at hread
    repeat
      first | rw [Bytes.bind_take16?_eq_some] at hread | rw [Bytes.bind_take32?_eq_some] at hread
      obtain ⟨_, _, rfl, hread⟩ := hread
    obtain ⟨rfl, hfields⟩ := Prod.mk.inj (Option.some.inj hread)
    obtain ⟨rfl, rfl⟩ := Prod.mk.inj hfields
    simp only [toBytes, List.append_assoc]
  · rintro rfl
    exact parse_toBytes f rest offset

theorem parse_eq_error {b : Bytes} {offset : Nat} {fault : Error} (h : parse b offset = .error fault) :
    fault = .corruptHeader offset .badLocalSignature := by
  unfold parse at h
  split at h
  · exact (Except.error.inj h).symm
  · split at h
    · exact nomatch h
    · exact (Except.error.inj h).symm

end LocalFields

namespace CentralFields

@[simp] theorem length_toBytes (f : CentralFields) : f.toBytes.length = length := rfl

@[simp] theorem read?_toBytes (f : CentralFields) (rest : Bytes) :
    read? (f.toBytes ++ rest) = some (signature, f, rest) := by
  rw [toBytes]
  simp only [List.append_assoc]
  apply Bytes.bind_take32?_le32
  repeat first | apply Bytes.bind_take16?_le16 | apply Bytes.bind_take32?_le32
  rfl

theorem texts?_append {f : CentralFields} {t : Texts} (hn : f.nameLength.toNat = t.rawName.length)
    (he : f.extraLength.toNat = t.extra.length) (hc : f.commentLength.toNat = t.comment.length)
    (rest : Bytes) :
    f.texts? (t.rawName ++ (t.extra ++ (t.comment ++ rest))) = some (t, rest) := by
  simp only [texts?, Bytes.takeExact?_append hn, Bytes.takeExact?_append he,
    Bytes.takeExact?_append hc, Option.bind_eq_bind, Option.bind_some]
  rfl

end CentralFields

namespace EndFields

@[simp] theorem length_toBytes (f : EndFields) : f.toBytes.length = length := rfl

@[simp] theorem read?_toBytes (f : EndFields) (rest : Bytes) :
    read? (f.toBytes ++ rest) = some (signature, f, rest) := by
  rw [toBytes]
  simp only [List.append_assoc]
  apply Bytes.bind_take32?_le32
  repeat first | apply Bytes.bind_take16?_le16 | apply Bytes.bind_take32?_le32
  rfl

end EndFields

theorem toNat_lengthField {n : Nat} (h : n ≤ Writer.maxFieldLength) : (UInt16.ofNat n).toNat = n := by
  have hmax : Writer.maxFieldLength = 65535 := rfl
  rw [UInt16.toNat_ofNat']
  omega

theorem toNat_of_fit32 {n : Nat} {field : UInt32} (h : Writer.fit32 n = .ok field) : field.toNat = n := by
  unfold Writer.fit32 at h
  split at h
  · next hn =>
    rw [← Except.ok.inj h, UInt32.toNat_ofNat']
    omega
  · exact nomatch h

theorem Writer.fits_iff {e : Entry} :
    fits e = true ↔ e.rawName.length ≤ maxFieldLength ∧ e.localExtra.length ≤ maxFieldLength ∧
      e.extra.length ≤ maxFieldLength ∧ e.comment.length ≤ maxFieldLength := by
  simp only [fits, Bool.and_eq_true, decide_eq_true_eq, and_assoc]

theorem EntryName.ofString_text (name : EntryName) : ofString name.text = .ok name := by
  unfold ofString
  rw [dif_neg name.text_ne_empty, dif_neg name.nul_notMem]

namespace Entry

@[simp] theorem length_localHeader (e : Entry) :
    e.localHeader.length = LocalFields.length + (e.rawName.length + e.localExtra.length) := by
  simp [localHeader]

/-- The steps by which an entry is read. -/
theorem parse_eq_ok_iff {b rest : Bytes} {offset index : Nat} {e : Entry} :
    parse b offset index = .ok (e, rest) ↔ ∃ f b' t name,
      CentralFields.read? b = some (CentralFields.signature, f, b') ∧ f.texts? b' = some (t, rest) ∧
      f.isZip64 = false ∧ f.flags &&& encryptedFlag = 0 ∧
      EntryName.ofString (Text.ofUtf8Lossy t.rawName) = .ok name ∧ e = ofFields f t name index := by
  constructor
  · intro h
    unfold parse at h
    split at h
    · exact nomatch h
    next sign f b' hread =>
    split at h
    · exact nomatch h
    next hsign =>
    split at h
    · exact nomatch h
    next t _ htexts =>
    split at h
    · exact nomatch h
    next hzip64 =>
    split at h
    · exact nomatch h
    next hflags =>
    split at h
    · exact nomatch h
    next name hname =>
    obtain ⟨rfl, rfl⟩ := Prod.mk.inj (Except.ok.inj h)
    obtain rfl : sign = CentralFields.signature := Decidable.not_not.mp hsign
    exact ⟨f, b', t, name, hread, htexts, eq_false_of_ne_true hzip64, Decidable.not_not.mp hflags,
      hname, rfl⟩
  · intro ⟨f, b', t, name, hread, htexts, hzip64, hflags, hname, he⟩
    simp only [parse, hread, ne_eq, not_true_eq_false, if_false, htexts, hzip64, hflags, hname, he,
      Bool.false_eq_true]

/-- What is read of an entry that was written to the directory. -/
def recorded (e : Entry) (localOffset : UInt32) (index : Nat) : Entry :=
  { e with flags := e.writtenFlags, localExtra := e.extra, localOffset, index }

/-- An entry that readers take: its name is the text of its raw name, and it is not encrypted. -/
structure Plain (e : Entry) : Prop where
  name : Text.ofUtf8Lossy e.rawName = e.name.text
  notEncrypted : e.flags &&& encryptedFlag = 0

/-- Sizes and offset are less than the number that stands for larger ones. -/
structure Narrow (e : Entry) (localOffset : UInt32) : Prop where
  packedSize : e.packedSize < 0xFFFFFFFF
  size : e.size < 0xFFFFFFFF
  localOffset : localOffset < 0xFFFFFFFF

theorem writtenFlags_notEncrypted {e : Entry} (h : e.flags &&& encryptedFlag = 0) :
    e.writtenFlags &&& encryptedFlag = 0 := by
  unfold writtenFlags
  rw [UInt16.and_assoc, UInt16.and_comm (~~~descriptorFlag), ← UInt16.and_assoc, h, UInt16.zero_and]

theorem parse_centralHeader {e : Entry} (hfits : Writer.fits e) (hplain : e.Plain) {localOffset : UInt32}
    (hnarrow : e.Narrow localOffset) (rest : Bytes) (offset index : Nat) :
    parse (e.centralHeader localOffset ++ rest) offset index = .ok (e.recorded localOffset index, rest) := by
  obtain ⟨hn, -, he, hc⟩ := Writer.fits_iff.mp hfits
  have hbytes : e.centralHeader localOffset ++ rest = (e.centralFields localOffset).toBytes ++
      (e.rawName ++ (e.extra ++ (e.comment ++ rest))) := by
    simp only [centralHeader, List.append_assoc]
  have htexts : (e.centralFields localOffset).texts? (e.rawName ++ (e.extra ++ (e.comment ++ rest))) =
      some (⟨e.rawName, e.extra, e.comment⟩, rest) :=
    CentralFields.texts?_append (t := ⟨e.rawName, e.extra, e.comment⟩) (toNat_lengthField hn)
      (toNat_lengthField he) (toNat_lengthField hc) rest
  have hzip64 : (e.centralFields localOffset).isZip64 = false := by
    have h₁ := UInt32.ne_of_lt hnarrow.packedSize
    have h₂ := UInt32.ne_of_lt hnarrow.size
    have h₃ := UInt32.ne_of_lt hnarrow.localOffset
    simp only [CentralFields.isZip64, centralFields, h₁, h₂, h₃, decide_false, Bool.or_self]
  have hflags : (e.centralFields localOffset).flags &&& encryptedFlag = 0 :=
    writtenFlags_notEncrypted hplain.notEncrypted
  have hname : EntryName.ofString (Text.ofUtf8Lossy e.rawName) = .ok e.name := by
    rw [hplain.name, EntryName.ofString_text]
  rw [hbytes]
  exact parse_eq_ok_iff.mpr ⟨e.centralFields localOffset, _, _, e.name, CentralFields.read?_toBytes _ _, htexts,
    hzip64, hflags, hname, rfl⟩

end Entry
end SourceLabel.Zip
