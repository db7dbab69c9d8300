import SourceLabel.Proofs.ClassFile.Relabelled
import SourceLabel.Proofs.Policy.Kept
import SourceLabel.Proofs.Relabel.Patching

/-!
# A class that has its new label

A class that got a new label is read again, and the policy looks at what is its label by then. If that is
the new label, or if there is none, the class is left as it is. This holds even if the class has got a new
name together with its label.
-/
namespace SourceLabel

namespace ClassFile

/-- With `s` in the place of the text at `i`, the class has the label `s` or none that can be read: the
first attribute that is then named for the label holds one index, of that text, of an equal one, or of no
text at all. -/
def Settles (c : ClassFile) (i : Index) (s : String) : Prop :=
  ∀ a, c.attributes.find? (c.namesLabelAfter i s) = some a →
    ∃ k, a.payload = Bytes.be16 k ∧ (k = i ∨ ∀ t, c.pool.text? k = some t → t = s)

variable {c : ClassFile} {i : Index} {old s : String}

theorem KeepsLabel.settles (h : c.KeepsLabel i s) : c.Settles i s := by
  obtain ⟨a, k, ha, hp, hk⟩ := h
  intro a' ha'
  obtain rfl : a = a' := Option.some.inj (ha.symm.trans ha')
  refine ⟨k, hp, hk.imp id fun ht t ht' => ?_⟩
  exact Option.some.inj (ht'.symm.trans ht)

theorem Settles.holdsIndex {t : Bytes} (h : c.Settles i s) (ht : c.pool.textBytes? i = some t) :
    (c.relabelledAt i s).HoldsIndex := by
  intro a ha
  rw [labelAttribute?_relabelledAt ht] at ha
  obtain ⟨k, hp, -⟩ := h a ha
  simp [hp]

theorem Settles.label?_eq {t : Bytes} {label : String} (h : c.Settles i s) (ht : c.pool.textBytes? i = some t)
    (hl : (c.relabelledAt i s).label? = some label) : label = s := by
  obtain ⟨a, k, rest, ha, hp, -, htext⟩ := label?_eq_some hl
  rw [labelAttribute?_relabelledAt ht] at ha
  obtain ⟨k', hp', hk'⟩ := h a ha
  have hsplit : Bytes.be16 k' ++ [] = Bytes.be16 k ++ rest := by
    rw [List.append_nil, ← hp', hp]
  obtain rfl := Bytes.be16_injective (List.append_inj hsplit rfl).1
  have htext' : (c.pool.replaced i s).text? k' = some label := htext
  rw [ConstantPool.text?_replaced ht] at htext'
  by_cases hki : k' = i
  · rw [if_pos hki] at htext'
    exact (Option.some.inj htext').symm
  · rw [if_neg hki] at htext'
    exact hk'.resolve_left hki label htext'

/-- The class has the same name as before, or it was called as it was labelled, and still is. -/
theorem name_relabelledAt (hw : c.WellFormed) (ht : c.pool.text? i = some old) {name : String}
    (hname : (c.relabelledAt i s).pool.className? c.thisClass = some name) :
    name = c.name ∨ c.name = old ∧ name = s := by
  obtain ⟨b, hb, hdecode⟩ := ConstantPool.text?_eq_some_iff.mp ht
  by_cases hi : c.pool.nameIndex? c.thisClass = some i
  · right
    have hold := hw.name
    rw [ConstantPool.className?_eq, hi, Option.bind_some, ConstantPool.lossyText?, hb] at hold
    have hindex : (c.relabelledAt i s).pool.nameIndex? c.thisClass = some i :=
      (congrFun (ConstantPool.nameIndex?_replaced hb s) _).trans hi
    have htext : (c.relabelledAt i s).pool.textBytes? i = some (Text.Modified.encode s) := by
      rw [relabelledAt, ConstantPool.textBytes?_replaced hb, if_pos rfl]
    rw [ConstantPool.className?_eq, hindex, Option.bind_some, ConstantPool.lossyText?, htext] at hname
    refine ⟨(Option.some.inj hold).symm.trans (Text.Modified.decodeLossy_of_decode hdecode), ?_⟩
    exact (Option.some.inj hname).symm.trans (Text.Modified.decodeLossy_of_decode (Text.Modified.decode_encode s))
  · left
    have hsame := ConstantPool.className?_replaced_of_ne hb s _ hi
    exact Option.some.inj ((hname.symm.trans hsame).trans hw.name)

end ClassFile

namespace Relabel

variable {policy : Policy} {path : NestedPath} {c : ClassFile} {p : Patched}

/-- The labels that the policy gives to a class settle. -/
def Settled (policy : Policy) (c : ClassFile) : Prop :=
  ∀ i old, c.labelIndex = .at i → c.label? = some old → c.Settles i (policy.relabel c.name old)

theorem settled_of_unshared {b : Bytes} (h : ClassFile.parse b = .ok c) (hu : c.Unshared) : Settled policy c :=
  fun i _ hi hl => (ClassFile.KeepsLabel.of_unshared h hl hi (hu.attributes i hi)).settles

/-- A class that was relabelled is read again, and is not relabelled any more. -/
theorem relabel_again (hd : policy.Dotted) (hw : c.WellFormed) (hs : Settled policy c)
    (h : relabel policy path c = .ok p) (hp : p.change = .changed) :
    ∃ c' p', ClassFile.parse p.classFile.toBytes = .ok c' ∧ relabel policy path c' = .ok p' ∧
      p'.change ≠ .changed := by
  obtain ⟨old, hl, hset⟩ := setLabel_of_changed h hp
  obtain ⟨i, t, hi, ht, he⟩ := ClassFile.eq_relabelledAt_of_setLabel hset
  have hlength := ClassFile.length_le_of_setLabel hset
  have hsettles := hs i old hi hl
  obtain ⟨name, hparse⟩ := ClassFile.parse_relabelledAt hw ht hlength (hsettles.holdsIndex ht)
  have htext : c.pool.text? i = some old := by
    unfold ClassFile.label? at hl
    rwa [hi] at hl
  have hname := (ClassFile.parse_eq_ok_iff.mp hparse).1.name
  have hshort : shortName name = shortName c.name := by
    rcases ClassFile.name_relabelledAt hw htext hname with rfl | ⟨hold, rfl⟩
    · rfl
    · rw [hold]
      exact hd.shortName_relabel old
  have hwanted : ∀ label, { c.relabelledAt i (policy.relabel c.name old) with name }.label? = some label →
      policy.relabel name label = label := by
    intro label hlabel
    obtain rfl := hsettles.label?_eq ht hlabel
    exact (Policy.relabel_congr hshort _).trans (hd.relabel_relabel _ _)
  obtain ⟨p', hp', hchange⟩ := relabel_of_label? path hwanted
  rw [← he] at hparse hp'
  exact ⟨_, p', hparse, hp', hchange⟩

end Relabel
end SourceLabel
