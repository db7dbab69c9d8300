import SourceLabel.Proofs.Zip.Finding
import SourceLabel.Proofs.Zip.Opening
import SourceLabel.Proofs.Zip.Unpacking

/-!
# What was read can be written

Whatever a reader takes over from an archive came out of fields, so it fits into the fields of a writer
again: the parts of a header, the extra field before a payload, the payload under its size, and the comment
of the archive.
-/
namespace SourceLabel.Zip

open Result

/-- A header as readers yield it: its parts fit into their fields, and readers take it again. -/
structure Entry.AsRead (e : Entry) : Prop extends Entry.Plain e where
  fits : Writer.fits e

theorem EntryName.text_of_ofString {s : String} {name : EntryName} (h : ofString s = .ok name) : name.text = s := by
  unfold ofString at h
  split at h
  · exact nomatch h
  · split at h
    · exact nomatch h
    · exact Except.ok.inj h ▸ rfl

theorem length_le_of_takeExact? {n : UInt16} {b front rest : Bytes}
    (h : Bytes.takeExact? n.toNat b = some (front, rest)) : front.length ≤ Writer.maxFieldLength := by
  obtain ⟨hl, -⟩ := Bytes.takeExact?_eq_some.mp h
  rw [hl]
  exact Nat.le_of_lt_succ n.toNat_lt

theorem CentralFields.lengths_of_texts? {f : CentralFields} {t : Texts} {b rest : Bytes}
    (h : f.texts? b = some (t, rest)) :
    t.rawName.length ≤ Writer.maxFieldLength ∧ t.extra.length ≤ Writer.maxFieldLength ∧
      t.comment.length ≤ Writer.maxFieldLength := by
  simp only [texts?, Option.bind_eq_bind, Option.bind_eq_some_iff, Prod.exists] at h
  obtain ⟨rawName, b₁, h₁, extra, b₂, h₂, comment, b₃, h₃, ht⟩ := h
  obtain ⟨rfl, -⟩ := Prod.mk.inj (Option.some.inj ht)
  exact ⟨length_le_of_takeExact? h₁, length_le_of_takeExact? h₂, length_le_of_takeExact? h₃⟩

namespace Entry

variable {e : Entry} {b rest : Bytes} {offset index : Nat}

theorem asRead_of_parse (h : parse b offset index = .ok (e, rest)) : e.AsRead := by
  obtain ⟨f, b', t, name, -, htexts, -, hflags, hname, rfl⟩ := parse_eq_ok_iff.mp h
  obtain ⟨hn, he, hc⟩ := CentralFields.lengths_of_texts? htexts
  exact ⟨⟨(EntryName.text_of_ofString hname).symm, hflags⟩, Writer.fits_iff.mpr ⟨hn, he, he, hc⟩⟩

theorem AsRead.withLocalExtra (h : e.AsRead) {localExtra : Bytes}
    (hx : localExtra.length ≤ Writer.maxFieldLength) : ({ e with localExtra } : Entry).AsRead := by
  obtain ⟨hn, -, he, hc⟩ := Writer.fits_iff.mp h.fits
  exact ⟨⟨h.name, h.notEncrypted⟩, Writer.fits_iff.mpr ⟨hn, hx, he, hc⟩⟩

theorem isSupported_of_unpack {raw data : Bytes} (h : e.unpack raw = .ok data) : e.method.isSupported :=
  (unpack_eq_ok_iff.mp h).1.isSupported

end Entry

namespace Archive

variable {a : Archive} {b : Bytes}

theorem asRead_of_parse (h : parse b = .ok a) : ∀ e ∈ a.entries, e.AsRead := by
  intro e he
  obtain ⟨-, header, offset, index, rest, hparse⟩ := mem_of_parse h he
  exact Entry.asRead_of_parse hparse

theorem length_comment_of_parse (h : parse b = .ok a) : a.comment.length ≤ Writer.maxFieldLength := by
  obtain ⟨record, recordStart, ho⟩ := parse_eq_ok_iff.mp h
  obtain ⟨pos, -, hparse, -⟩ := EndRecord.find_eq_ok ho.find
  obtain ⟨sign, f, rest, -, hcomment⟩ := EndRecord.parseAt_eq_ok hparse
  have hl := f.commentLength.toNat_lt
  have hm : Writer.maxFieldLength = 65535 := rfl
  rw [ho.comment, hcomment, List.length_take]
  omega

theorem lengths_of_readRaw {index : Nat} {e : Entry} {raw : RawEntry} (he : a.entries[index]? = some e)
    (h : a.readRaw b index = .ok raw) :
    raw.data.length = e.packedSize.toNat ∧ raw.localExtra.length ≤ Writer.maxFieldLength := by
  unfold readRaw at h
  rw [he] at h
  dsimp only at h
  split at h
  · exact nomatch h
  · obtain ⟨⟨f, b₁⟩, -, h⟩ := bind_eq_ok.mp h
    dsimp only at h
    split at h
    · exact nomatch h
    · split at h
      · next localExtra b₂ hx =>
        split at h
        · next data b₃ hd =>
          obtain rfl := Except.ok.inj h
          exact ⟨(Bytes.takeExact?_eq_some.mp hd).1, length_le_of_takeExact? hx⟩
        · exact nomatch h
      · exact nomatch h

end Archive
end SourceLabel.Zip
