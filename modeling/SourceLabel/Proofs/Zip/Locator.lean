import SourceLabel.Proofs.Zip.AsRead
import SourceLabel.Proofs.Zip.ReadBack

/-!
# Archives that look wider than they are

A writer refuses whatever needs wider numbers, and a reader refuses whatever says that it needs them. To a
reader this is said by a number that stands for larger ones, and by the signature of a locator twenty bytes
before the end record. A writer looks at numbers only. What it writes right before the end record is the end
of the last directory header, and that can be any bytes: extra fields and comments are taken over as they
are. So an archive that holds headers as readers yield them is opened again unless these bytes begin like a
locator, and nothing else is refused.
-/
namespace SourceLabel.Zip

/-- A header that was read from a directory, with any extra field before its payload. -/
def Entry.Obtained (e : Entry) : Prop :=
  ∃ b offset index read rest localExtra, parse b offset index = .ok (read, rest) ∧
    localExtra.length ≤ Writer.maxFieldLength ∧ e = { read with localExtra }

theorem Entry.Obtained.asRead {e : Entry} (h : e.Obtained) : e.AsRead := by
  obtain ⟨b, offset, index, read, rest, localExtra, hparse, hlength, rfl⟩ := h
  exact (asRead_of_parse hparse).withLocalExtra hlength

theorem Entry.obtained_of_parse {e : Entry} {b rest : Bytes} {offset index : Nat}
    (h : parse b offset index = .ok (e, rest)) : e.Obtained := by
  have hlength := (Writer.fits_iff.mp (asRead_of_parse h).fits).2.1
  exact ⟨b, offset, index, e, rest, e.localExtra, h, hlength, rfl⟩

namespace Writer

variable {w : Writer} {done : Finished}

/-- Without a comment the part of the archive that is looked at begins early enough to show a locator. -/
theorem showsLocator_eq (h : w.finish = .ok done) (hcomment : w.comment = []) :
    w.showsLocator done = EndRecord.hasLocator done.bytes w.recordStart := by
  have hlength := length_finish h
  rw [hcomment, List.length_nil] at hlength
  have hmax : EndRecord.maxLength = 65557 := rfl
  have hfixed : EndFields.length = 22 := rfl
  have hlocator : EndRecord.locatorLength = 20 := rfl
  rw [showsLocator]
  by_cases hroom : EndRecord.locatorLength ≤ w.recordStart
  · have hseen : EndRecord.tailStart done.bytes.length + EndRecord.locatorLength ≤ w.recordStart := by
      rw [EndRecord.tailStart]
      omega
    rw [decide_eq_true hseen, Bool.true_and]
  · have hnone : EndRecord.hasLocator done.bytes w.recordStart = false := by
      rw [EndRecord.hasLocator, decide_eq_false hroom, Bool.false_and]
    rw [hnone, Bool.and_false]

end Writer

/-- An archive without a comment that was written from headers as readers yield them is refused for wider
numbers if the bytes before its end record begin like a locator, and opened otherwise. -/
theorem Taken.parse_unless_locator {level : Deflate.Level} {calls : List Call} {w : Writer}
    (hcalls : Taken { level } calls w) (hobtained : ∀ call ∈ calls, call.given.Obtained) {done : Finished}
    (hfinish : w.finish = .ok done) (hnarrow : w.Narrow) :
    Archive.parse done.bytes =
      if EndRecord.hasLocator done.bytes w.recordStart then .error (.unsupportedFeature .zip64)
      else .ok w.reopened := by
  obtain ⟨hholds, -, hcomment⟩ := hcalls.holds (Writer.holds_nil level [])
  have hitems : ∀ item ∈ [] ++ Call.items level calls, item.1.Plain := by
    intro item hitem
    obtain ⟨call, hcall, rfl⟩ := List.mem_map.mp hitem
    exact Call.plain_header (hobtained call hcall).asRead.toPlain
  rw [← Writer.showsLocator_eq hfinish hcomment]
  exact hholds.parse_finish_eq hitems hnarrow hfinish fun pos => Writer.endsExactly_after hfinish hcomment

/-- An empty entry whose comment begins like a locator. -/
def markedEntry (padding : Nat) : Entry where
  name := ⟨"m", by decide, by decide⟩
  rawName := [0x6d]
  method := .stored
  comment := Bytes.le32 EndRecord.locatorSignature ++ List.replicate padding 0

def markedCall (padding : Nat) : Call :=
  .copy (markedEntry padding) []

def markedWriter (padding : Nat) : Writer :=
  ((markedCall padding).perform {}).2

def markedArchive (padding : Nat) : Finished :=
  ⟨((markedWriter padding).sink.toList ++ (markedWriter padding).directory) ++
    (markedWriter padding).endRecord.toBytes, 1, 104 + padding, (markedWriter padding).tally⟩

/-- One byte further away the signature does no harm. -/
theorem parse_unless_locator_seventeen :
    Taken {} [markedCall 17] (markedWriter 17) ∧ (∀ call ∈ [markedCall 17], call.given.Obtained) ∧
      (markedWriter 17).finish = .ok (markedArchive 17) ∧ (markedWriter 17).Narrow ∧
      EndRecord.hasLocator (markedArchive 17).bytes (markedWriter 17).recordStart = false ∧
      Archive.parse (markedArchive 17).bytes = .ok (markedWriter 17).reopened := by
  have hcalls : Taken {} [markedCall 17] (markedWriter 17) := .cons (by cbv) (.none _)
  have hread : Entry.parse ((markedEntry 17).centralHeader 0) 0 0 = .ok (markedEntry 17, []) := by cbv
  have hobtained : ∀ call ∈ [markedCall 17], call.given.Obtained :=
    List.forall_mem_singleton.mpr (Entry.obtained_of_parse hread)
  have hfinish : (markedWriter 17).finish = .ok (markedArchive 17) := by cbv
  have hlocator : EndRecord.hasLocator (markedArchive 17).bytes (markedWriter 17).recordStart = false := by
    decide +kernel
  have hnarrow : (markedWriter 17).Narrow := by decide +kernel
  have hparse := hcalls.parse_unless_locator hobtained hfinish hnarrow
  rw [hlocator] at hparse
  exact ⟨hcalls, hobtained, hfinish, hnarrow, hlocator, hparse⟩

/-- The comment of the last entry stands where a reader looks for a locator. Everything is written, and
refused when it is read. -/
theorem lastComment_refused :
    Taken {} [markedCall 16] (markedWriter 16) ∧ (∀ call ∈ [markedCall 16], call.given.Obtained) ∧
      (markedWriter 16).finish = .ok (markedArchive 16) ∧ (markedWriter 16).Narrow ∧
      Archive.parse (markedArchive 16).bytes = .error (.unsupportedFeature .zip64) := by
  have hcalls : Taken {} [markedCall 16] (markedWriter 16) := .cons (by cbv) (.none _)
  have hread : Entry.parse ((markedEntry 16).centralHeader 0) 0 0 = .ok (markedEntry 16, []) := by cbv
  have hobtained : ∀ call ∈ [markedCall 16], call.given.Obtained :=
    List.forall_mem_singleton.mpr (Entry.obtained_of_parse hread)
  have hfinish : (markedWriter 16).finish = .ok (markedArchive 16) := by cbv
  have hparse : Archive.parse (markedArchive 16).bytes = .error (.unsupportedFeature .zip64) := by decide +kernel
  exact ⟨hcalls, hobtained, hfinish, by decide +kernel, hparse⟩

end SourceLabel.Zip
