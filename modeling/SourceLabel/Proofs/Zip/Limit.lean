import SourceLabel.Proofs.Zip.AsRead
import SourceLabel.Proofs.Zip.Written

/-!
# Why a writer refuses an entry

A writer checks what it is given. If the header fits, and the payload or the contents are what the header
allows, then the only thing that is left to refuse is an archive that would need wider numbers.
-/
namespace SourceLabel

/-- The failure says that wider numbers would be needed. -/
def Error.IsLimit (e : Error) : Prop :=
  e = .unsupportedFeature .zip64

namespace Zip

open Result Error

/-- Nothing speaks against the call but the width of numbers. -/
inductive Call.Acceptable : Call → Prop
  | add {template : Entry} {data : Bytes} : Writer.fits template → template.method.isSupported →
      (template.isDirectory = true → data = []) → Acceptable (.add template data)
  | copy {header : Entry} {payload : Bytes} : Writer.fits header →
      payload.length = header.packedSize.toNat → Acceptable (.copy header payload)

namespace Writer

variable {e : Entry} {w : Writer}

theorem isLimit_fit32 (n : Nat) : FailsWith IsLimit (fit32 n) := by
  unfold fit32
  split
  · exact .ok _
  · exact .error rfl

theorem isLimit_place (h : fits e) (w : Writer) : FailsWith IsLimit (w.place e) := by
  unfold place
  dsimp only
  split
  · exact .error rfl
  · refine (isLimit_fit32 _).bind fun offset _ => ?_
    exact .ok offset

theorem isLimit_put (h : fits e) (w : Writer) (payload : Bytes) : FailsWith IsLimit (w.put e payload).1 := by
  unfold put
  split
  · next fault hp => exact .error (isLimit_place h w fault hp)
  · exact .ok ()

theorem isLimit_pack {m : Method} (h : m.isSupported) (data : Bytes) (level : Deflate.Level) (entry : String) :
    FailsWith IsLimit (m.pack data level entry) := by
  unfold Method.pack
  split
  · exact .ok _
  · next hs =>
    split
    · exact .ok _
    · next hd => simp [Method.isSupported, hs, hd] at h

theorem isLimit_prepare {template : Entry} {data : Bytes} (level : Deflate.Level)
    (hm : template.method.isSupported) (hd : template.isDirectory = true → data = []) :
    FailsWith IsLimit (prepare level template data) := by
  have hdirectory : (template.isDirectory && !data.isEmpty) = false := by
    cases h : template.isDirectory with
    | false => rfl
    | true => rw [hd h]; rfl
  unfold prepare
  rw [hdirectory]
  dsimp only
  refine (isLimit_pack hm _ _ _).bind fun payload _ => ?_
  refine (isLimit_fit32 _).bind fun size _ => ?_
  exact (isLimit_fit32 _).bind fun _ _ => .ok _

theorem fits_header (level : Deflate.Level) (call : Call) : fits (call.header level) = fits call.given := by
  cases call with
  | add template data => rw [fits, fits, Call.header, Call.given]
  | copy header payload => rfl

theorem isLimit_perform {call : Call} (h : call.Acceptable) (w : Writer) :
    FailsWith IsLimit (call.perform w).1 := by
  cases h with
  | @add template data hfits hm hd =>
    simp only [Call.perform, add]
    split
    · next fault hp => exact .error (isLimit_prepare w.level hm hd fault hp)
    · next e payload hp =>
      obtain ⟨he, -, -⟩ := prepare_eq_ok hp
      have hfits' : fits e := by
        rw [he, fits_header]
        exact hfits
      exact isLimit_put hfits' _ _
  | @copy header payload hfits hl =>
    simp only [Call.perform, copy, if_pos hl]
    exact isLimit_put hfits _ _

theorem isLimit_finish (h : w.comment.length ≤ maxFieldLength) : FailsWith IsLimit w.finish := by
  unfold finish
  refine (isLimit_fit32 _).bind fun offset _ => ?_
  refine (isLimit_fit32 _).bind fun size _ => ?_
  dsimp only
  split
  · next hlong => exact absurd h (Nat.not_le.mpr hlong)
  · exact .ok _

end Writer
end Zip
end SourceLabel
