import SourceLabel.Proofs.Checksum
import SourceLabel.Proofs.Zip.Unpacking

/-!
# Payloads that were damaged

A payload that was unpacked has the checksum that the header promises. Damage within four bytes of the contents
changes the checksum and leaves their length alone, so whatever payload stands for the damaged contents passes the
check of the size and then fails the one of the checksum. If the method is to store contents as they are, that is
the damaged payload itself.
-/
namespace SourceLabel.Zip.Entry

open Result

variable {e : Entry} {raw data damaged : Bytes}

/-- Contents of the right size but the wrong checksum are refused for their checksum. -/
theorem unpack_of_ne_checksum (hstands : e.method.StandsFor raw data) (hlength : data.length = e.size.toNat)
    (hsum : Checksum.of data ≠ e.checksum) :
    e.unpack raw = .error (.crcMismatch e.name.text e.checksum (Checksum.of data)) := by
  have hunpack : e.method.unpack raw e.size.toNat e.name.text = .ok data :=
    Method.unpack_eq_ok_iff.mpr ⟨hstands, hlength⟩
  simp only [unpack, hunpack, bind, Except.bind, hsum, if_false]
  rfl

/-- Damage within four bytes of contents that could be unpacked changes their checksum, and payloads that stand for
what was damaged are refused. -/
theorem unpack_damaged (h : e.unpack raw = .ok data) (hdamaged : Bytes.Damaged 4 data damaged) :
    Checksum.of damaged ≠ Checksum.of data ∧
    (∀ raw', e.method.StandsFor raw' damaged →
      e.unpack raw' = .error (.crcMismatch e.name.text e.checksum (Checksum.of damaged))) ∧
    (e.method = .stored →
      e.unpack damaged = .error (.crcMismatch e.name.text e.checksum (Checksum.of damaged))) := by
  obtain ⟨-, hlength, hsum⟩ := unpack_eq_ok_iff.mp h
  have hchanged := Checksum.ne_of_damaged hdamaged
  have hrefused : ∀ raw', e.method.StandsFor raw' damaged →
      e.unpack raw' = .error (.crcMismatch e.name.text e.checksum (Checksum.of damaged)) := fun raw' hstands =>
    unpack_of_ne_checksum hstands (hdamaged.length.trans hlength) (hsum ▸ hchanged)
  refine ⟨hchanged, hrefused, fun hstored => hrefused damaged ?_⟩
  rw [hstored]
  exact Method.standsFor_stored.mpr rfl

def sixBytes : Entry where
  name := ⟨"n", by decide, by decide⟩
  rawName := [0x6E]
  method := .stored
  checksum := Checksum.of [1, 2, 3, 4, 5, 6]
  packedSize := 6
  size := 6

theorem damaged_sixBytes : Bytes.Damaged 4 [1, 2, 3, 4, 5, 6] [1, 7, 3, 4, 0, 6] where
  length := rfl
  ne := by decide
  window := ⟨1, fun
    | 0, hi => absurd rfl hi
    | 1, _ | 2, _ | 3, _ | 4, _ => by decide
    | _ + 5, hi => absurd rfl hi⟩

theorem unpack_damaged_sixBytes :
    sixBytes.unpack [1, 2, 3, 4, 5, 6] = .ok [1, 2, 3, 4, 5, 6] ∧
    Bytes.Damaged 4 [1, 2, 3, 4, 5, 6] [1, 7, 3, 4, 0, 6] ∧
    Checksum.of [1, 7, 3, 4, 0, 6] ≠ Checksum.of [1, 2, 3, 4, 5, 6] ∧
    (∀ raw', sixBytes.method.StandsFor raw' [1, 7, 3, 4, 0, 6] →
      sixBytes.unpack raw' = .error (.crcMismatch "n" sixBytes.checksum (Checksum.of [1, 7, 3, 4, 0, 6]))) ∧
    (sixBytes.method = .stored → sixBytes.unpack [1, 7, 3, 4, 0, 6] =
      .error (.crcMismatch "n" sixBytes.checksum (Checksum.of [1, 7, 3, 4, 0, 6]))) := by
  have hunpack : sixBytes.unpack [1, 2, 3, 4, 5, 6] = .ok [1, 2, 3, 4, 5, 6] :=
    unpack_eq_ok_iff.mpr ⟨Method.standsFor_stored.mpr rfl, rfl, rfl⟩
  exact ⟨hunpack, damaged_sixBytes, unpack_damaged hunpack damaged_sixBytes⟩

end SourceLabel.Zip.Entry
