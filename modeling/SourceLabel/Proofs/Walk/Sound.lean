import SourceLabel.Proofs.Walk.Opened
import SourceLabel.Proofs.Walk.Tree
import SourceLabel.Proofs.Zip.AsRead

/-!
# What is known of the tree of a file

The tree of a file is made of what readers have checked. Headers, payloads and comments fit into the fields
they came from. A container is no directory, is packed by a known method, and lies where the plan for the
file opens containers.
-/
namespace SourceLabel.Walk

open Container

namespace Tree

/-- The header that the container has is as readers yield it, and contents can be packed under it. -/
def Packable (header : Zip.Entry) : Prop :=
  header.AsRead ∧ header.method.isSupported = true ∧ header.isDirectory = false

mutual

/-- All parts of the tree are as reading a file of this name yields them. -/
def Sound (name : String) : Tree → Prop
  | .leaf l => ∀ header raw, l.payload = .packed header raw →
      header.AsRead ∧ raw.length = header.packedSize.toNat
  | .container c entries =>
    ((∃ position, Opens name c.path position) ∧ c.comment.length ≤ Zip.Writer.maxFieldLength ∧
      ∀ header, c.header? = some header → Packable header) ∧ AllSound name entries
  | .broken _ => True

def AllSound (name : String) : List Tree → Prop
  | [] => True
  | t :: ts => t.Sound name ∧ AllSound name ts

end

theorem allSound_iff {name : String} {ts : List Tree} : AllSound name ts ↔ ∀ t ∈ ts, t.Sound name := by
  induction ts with
  | nil => simp [AllSound]
  | cons t ts ih => simp [AllSound, ih]

theorem isDirectory_of_stage? {plan : UnpackPlan} {entry : Zip.EntryName} {start position : Nat} {stage : Stage}
    (h : plan.stage? entry.text false start = some (stage, position)) : entry.isDirectory = false := by
  obtain ⟨-, -, ho⟩ := UnpackPlan.stage?_eq_some h
  unfold UnpackPlan.opens at ho
  unfold Zip.EntryName.isDirectory
  split at ho
  · exact nomatch ho
  · simp only [Bool.not_false, Bool.true_and, Bool.and_eq_true, Bool.not_eq_true'] at ho
    exact ho.1

/-- The recursion on containers yields sound trees. -/
theorem ofContainer_sound {name : String} {path : NestedPath} {stage : Nat} (hopens : Opens name path stage)
    {header? : Option Zip.Entry} (hheader : ∀ header, header? = some header → Packable header)
    (key : EntryKey) (kind : Kind) (b : Bytes) :
    (ofContainer (UnpackPlan.forInput name) path key kind header? stage b).Sound name := by
  induction hm : (UnpackPlan.forInput name).stages.length - stage using Nat.strongRecOn
    generalizing path key kind header? stage b with
  | _ m ih =>
    rw [ofContainer]
    cases ha : Zip.Archive.parse b with
    | error e => trivial
    | ok archive =>
      refine ⟨⟨⟨stage, hopens⟩, Zip.Archive.length_comment_of_parse ha, hheader⟩, allSound_iff.mpr ?_⟩
      intro t ht
      obtain ⟨⟨entry, i⟩, hmem, rfl⟩ := List.mem_map.mp ht
      have hentry : archive.entries[i]? = some entry := by
        rw [← Array.getElem?_toList]
        exact List.mem_zipIdx_iff_getElem?.mp hmem
      have hread := Zip.Archive.asRead_of_parse ha entry (Array.mem_of_getElem? hentry)
      rw [ofEntry]
      cases hraw : archive.readRaw b i with
      | error e => trivial
      | ok raw =>
        obtain ⟨hdata, hextra⟩ := Zip.Archive.lengths_of_readRaw hentry hraw
        have hheader := hread.withLocalExtra hextra
        simp only [ofAttempt_ok]
        split
        · intro header data hp
          obtain ⟨rfl, rfl⟩ := Payload.packed.inj hp
          exact ⟨hheader, hdata⟩
        · next opener position hs =>
          have hb := UnpackPlan.stage?_bounds hs
          cases hu : ({ entry with localExtra := raw.localExtra } : Zip.Entry).unpack raw.data with
          | error e => trivial
          | ok data =>
            refine ih _ (by omega) (.entry hopens hs) (fun header hh => ?_) _ _ _ rfl
            obtain rfl := Option.some.inj hh
            exact ⟨hheader, Zip.Entry.isSupported_of_unpack hu, isDirectory_of_stage? hs⟩

theorem ofFile_sound (name : String) (file : Bytes) : (ofFile name file).Sound name := by
  simp only [ofFile]
  split
  · intro header raw hp
    cases hp
  · next opener position hs =>
    refine ofContainer_sound (.file hs) (fun header hh => ?_) _ _ _
    exact absurd hh.symm (Option.some_ne_none header)

end Tree
end SourceLabel.Walk
