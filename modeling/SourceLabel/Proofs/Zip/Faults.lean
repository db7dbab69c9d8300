import SourceLabel.Proofs.Result
import SourceLabel.Zip.Archive
import SourceLabel.Zip.Writer

/-!
# Failures of the archive layer

Whatever is read or written of an archive, a failure says nothing about where the archive lies: it takes the
place that it is given, and is then a fault of the container there.
-/
namespace SourceLabel

open Result

/-- The failure names no place yet, and takes any place that it is given. -/
def Error.Placeless (e : Error) : Prop :=
  ∀ path, e.inContainer path = .malformedContainer path e.message

/-- The failure is a fault of the container at this path. -/
def Error.MalformedAt (path : String) (e : Error) : Prop :=
  ∃ reason, e = .malformedContainer path reason

namespace Error

theorem placeless_shortRead : Placeless (.io .shortRead) := fun _ => rfl

theorem placeless_invalidFormat (fault : FormatFault) : Placeless (.invalidFormat fault) := fun _ => rfl

theorem placeless_corruptHeader (offset : Nat) (fault : HeaderFault) : Placeless (.corruptHeader offset fault) :=
  fun _ => rfl

theorem placeless_unsupportedMethod (method : UInt16) (entry : String) :
    Placeless (.unsupportedMethod method entry) := fun _ => rfl

theorem placeless_unsupportedFeature (feature : Feature) : Placeless (.unsupportedFeature feature) :=
  fun _ => rfl

theorem placeless_crcMismatch (entry : String) (expected actual : UInt32) :
    Placeless (.crcMismatch entry expected actual) := fun _ => rfl

end Error

/-- Once a place is known, the failure is a fault of the container there. -/
theorem Result.FailsWith.placed {x : Except Error α} (h : FailsWith Error.Placeless x) (path : String) :
    FailsWith (Error.MalformedAt path) (x.mapError (Error.inContainer path)) :=
  h.mapError fun e he => ⟨e.message, he path⟩

namespace Zip

open Error

/-! ## Reading -/

theorem Method.failsWith_unpack (m : Method) (raw : Bytes) (size : Nat) (entry : String) :
    FailsWith Placeless (m.unpack raw size entry) := by
  have hend : ∀ data : Bytes, FailsWith Placeless
      (if data.length = size then pure data else throw (.invalidFormat (.wrongSize entry data.length size))) := by
    intro data
    split
    · exact .ok data
    · exact .error (placeless_invalidFormat _)
  unfold unpack
  dsimp only
  split
  · exact hend raw
  · split
    · split
      · exact hend _
      · exact .error (placeless_invalidFormat _)
    · exact .error (placeless_unsupportedMethod _ _)

theorem Entry.failsWith_unpack (e : Entry) (raw : Bytes) : FailsWith Placeless (e.unpack raw) := by
  unfold unpack
  refine (Method.failsWith_unpack _ _ _ _).bind fun data _ => ?_
  dsimp only
  split
  · exact .ok data
  · exact .error (placeless_crcMismatch _ _ _)

theorem Entry.failsWith_parse (b : Bytes) (offset index : Nat) : FailsWith Placeless (parse b offset index) := by
  unfold parse
  split
  · exact .error (placeless_corruptHeader _ _)
  · split
    · exact .error (placeless_corruptHeader _ _)
    · split
      · exact .error (placeless_corruptHeader _ _)
      · split
        · exact .error (placeless_unsupportedFeature _)
        · split
          · exact .error (placeless_unsupportedFeature _)
          · split
            · exact .error (placeless_corruptHeader _ _)
            · exact .ok _

theorem EndRecord.failsWith_parseAt (tail : Bytes) (pos : Nat) : FailsWith Placeless (parseAt tail pos) := by
  unfold parseAt
  split
  · exact .error (placeless_invalidFormat _)
  · split
    · exact .error (placeless_unsupportedFeature _)
    · split
      · exact .error (placeless_unsupportedFeature _)
      · exact .ok _

theorem EndRecord.failsWith_find (tail : Bytes) (start : Nat) : FailsWith Placeless (find tail start) := by
  unfold find
  dsimp only
  split
  · exact .error (placeless_invalidFormat _)
  · split
    · exact .error (placeless_invalidFormat _)
    · exact (failsWith_parseAt tail _).bind fun _ _ => .ok _

theorem LocalFields.failsWith_parse (b : Bytes) (offset : Nat) : FailsWith Placeless (parse b offset) := by
  unfold parse
  split
  · exact .error (placeless_corruptHeader _ _)
  · split
    · exact .ok _
    · exact .error (placeless_corruptHeader _ _)

namespace Archive

theorem failsWith_readDirectory (directory left offset : Nat) (b : Bytes) (entries : Array Entry) :
    FailsWith Placeless (readDirectory directory left offset b entries) := by
  induction left generalizing offset b entries with
  | zero => exact .ok entries
  | succ left ih =>
    unfold readDirectory
    split
    · next e he => exact .error (Entry.failsWith_parse _ _ _ e he)
    · split
      · exact .error (placeless_corruptHeader _ _)
      · exact ih _ _ _

theorem failsWith_parse (b : Bytes) : FailsWith Placeless (parse b) := by
  unfold parse
  refine (EndRecord.failsWith_find _ _).bind fun found _ => ?_
  dsimp only
  split
  · exact .error (placeless_corruptHeader _ _)
  · exact (failsWith_readDirectory _ _ _ _ _).bind fun _ _ => .ok _

theorem failsWith_readRaw (a : Archive) (b : Bytes) (index : Nat) : FailsWith Placeless (a.readRaw b index) := by
  unfold readRaw
  split
  · dsimp only
    split
    · exact .error placeless_shortRead
    · refine (LocalFields.failsWith_parse _ _).bind fun fields _ => ?_
      split
      · exact .error (placeless_corruptHeader _ _)
      · split
        · split
          · exact .ok _
          · exact .error placeless_shortRead
        · exact .error placeless_shortRead
  · exact .error (placeless_invalidFormat _)

end Archive

/-! ## Writing -/

theorem Method.failsWith_pack (m : Method) (data : Bytes) (level : Deflate.Level) (entry : String) :
    FailsWith Placeless (m.pack data level entry) := by
  unfold pack
  split
  · exact .ok _
  · split
    · exact .ok _
    · exact .error (placeless_unsupportedMethod _ _)

namespace Writer

theorem failsWith_fit32 (n : Nat) : FailsWith Placeless (fit32 n) := by
  unfold fit32
  split
  · exact .ok _
  · exact .error (placeless_unsupportedFeature _)

theorem failsWith_place (w : Writer) (e : Entry) : FailsWith Placeless (w.place e) := by
  unfold place
  dsimp only
  split
  · exact .error (placeless_unsupportedFeature _)
  · refine (failsWith_fit32 _).bind fun offset _ => ?_
    split
    · exact .ok offset
    · exact .error (placeless_invalidFormat _)

theorem failsWith_put (w : Writer) (e : Entry) (payload : Bytes) : FailsWith Placeless (w.put e payload).1 := by
  unfold put
  split
  · next fault h => exact .error (failsWith_place w e fault h)
  · exact .ok ()

theorem failsWith_copy (w : Writer) (e : Entry) (payload : Bytes) : FailsWith Placeless (w.copy e payload).1 := by
  unfold copy
  split
  · exact failsWith_put w e payload
  · exact .error (placeless_invalidFormat _)

theorem failsWith_prepare (level : Deflate.Level) (template : Entry) (data : Bytes) :
    FailsWith Placeless (prepare level template data) := by
  unfold prepare
  dsimp only
  split
  · exact .error (placeless_invalidFormat _)
  · refine (Method.failsWith_pack _ _ _ _).bind fun payload _ => ?_
    refine (failsWith_fit32 _).bind fun size _ => ?_
    exact (failsWith_fit32 _).bind fun _ _ => .ok _

theorem failsWith_add (w : Writer) (template : Entry) (data : Bytes) :
    FailsWith Placeless (w.add template data).1 := by
  unfold add
  split
  · next fault h => exact .error (failsWith_prepare _ _ _ fault h)
  · exact failsWith_put _ _ _

theorem failsWith_finish (w : Writer) : FailsWith Placeless w.finish := by
  unfold finish
  refine (failsWith_fit32 _).bind fun offset _ => ?_
  refine (failsWith_fit32 _).bind fun size _ => ?_
  dsimp only
  split
  · exact .error (placeless_invalidFormat _)
  · exact .ok _

end Writer
end Zip
end SourceLabel
