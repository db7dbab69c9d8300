import SourceLabel.Proofs.ClassFile.References

/-!
# One new label after another

A class that was read may get new labels any number of times. Whatever they are, its numbers go on fitting
their fields and its reference to its own name goes on leading to a text. So what is written for it is
refused in one case only: the attribute that has come to hold the label has a payload that is no index.
What is read back otherwise is the class as it is, under the name that its pool has by then. If the label
is a text that nothing else is named through, neither can happen, and the class itself is read back.
-/
namespace SourceLabel.ClassFile

/-- What comes of a class by new labels that it takes, one after another. -/
inductive Relabelled (c : ClassFile) : ClassFile → Prop
  | none : Relabelled c c
  | more {d e : ClassFile} {s : String} : Relabelled c d → d.setLabel s = .ok e → Relabelled c e

/-! ## What no label breaks -/

/-- The numbers of the class fit their fields, and it has a name. -/
structure Named (c : ClassFile) : Prop extends Shaped c where
  named : ∃ name, c.pool.className? c.thisClass = some name

/-- The attribute that holds the label, if there is one, holds one index. -/
def HoldsIndex (c : ClassFile) : Prop :=
  ∀ a, c.labelAttribute? = some a → a.payload.length = 2

variable {b : Bytes} {c d : ClassFile} {s : String}

theorem WellFormed.named (h : c.WellFormed) : c.Named :=
  ⟨h.toShaped, c.name, h.name⟩

theorem length_le_of_setText {p p' : ConstantPool} {i : Index} (h : p.setText i s = .ok p') :
    (Text.Modified.encode s).length ≤ 65535 := by
  unfold ConstantPool.setText at h
  dsimp only at h
  split at h
  · exact nomatch h
  · next hlong => exact Nat.not_lt.mp hlong

theorem length_le_of_setLabel (h : c.setLabel s = .ok d) : (Text.Modified.encode s).length ≤ 65535 := by
  unfold setLabel at h
  split at h
  · exact nomatch h
  · exact nomatch h
  · split at h
    · exact nomatch h
    · next hp => exact length_le_of_setText hp

theorem Named.setLabel (hc : c.Named) (h : c.setLabel s = .ok d) : d.Named := by
  have hs := length_le_of_setLabel h
  obtain ⟨i, old, -, ht, rfl⟩ := eq_relabelledAt_of_setLabel h
  obtain ⟨name, hname⟩ := hc.named
  refine ⟨⟨hc.pool.replaced ht hs, hc.interfaces, hc.fields, hc.methods, hc.attributes⟩, ?_⟩
  exact ConstantPool.className?_replaced ht s hname

theorem Named.relabelled (hc : c.Named) (h : c.Relabelled d) : d.Named := by
  induction h with
  | none => exact hc
  | more _ hs ih => exact ih.setLabel hs

/-- What is written for the class is read as the class under the name of its pool, or refused because of
the attribute that holds the label. -/
theorem Named.parse_toBytes (hc : c.Named) :
    ∃ name, c.pool.className? c.thisClass = some name ∧
      match parse c.toBytes with
      | .ok x => x = { c with name } ∧ c.HoldsIndex
      | .error _ => ¬ c.HoldsIndex := by
  obtain ⟨name, hname⟩ := hc.named
  refine ⟨name, hname, ?_⟩
  have hread (hi : c.HoldsIndex) : parse c.toBytes = .ok { c with name } :=
    parse_eq_ok_iff.mpr ⟨⟨⟨hc.pool, hc.interfaces, hc.fields, hc.methods, hc.attributes⟩, hname, hi⟩, rfl⟩
  cases hp : parse c.toBytes with
  | error e =>
    intro hi
    exact nomatch hp.symm.trans (hread hi)
  | ok x =>
    obtain ⟨hx, hb⟩ := parse_eq_ok_iff.mp hp
    have he : x = { c with name := x.name } := toBytes_injective hx.toShaped hc.toShaped hb.symm
    have hi : c.HoldsIndex := by
      intro a ha
      refine hx.label a ?_
      rw [he]
      exact ha
    exact ⟨Except.ok.inj (hp.symm.trans (hread hi)), hi⟩

/-! ## A label that is a text of its own -/

/-- Neither the class nor an attribute of it is named through its label. -/
structure Unshared (c : ClassFile) : Prop where
  attributes : ∀ i, c.labelIndex = .at i → ∀ a ∈ c.attributes, a.name ≠ i
  name : ∀ i, c.labelIndex = .at i → c.pool.nameIndex? c.thisClass ≠ some i

theorem labelAttribute?_relabelledAt_of_ne {i : Index} {old : Bytes} (ht : c.pool.textBytes? i = some old)
    (hu : ∀ a ∈ c.attributes, a.name ≠ i) : (c.relabelledAt i s).labelAttribute? = c.labelAttribute? := by
  rw [labelAttribute?_relabelledAt ht]
  refine List.find?_congr fun a ha => ?_
  unfold namesLabelAfter
  rw [if_neg (hu a ha)]

/-- Such a label changes by itself: the class has the same name, and the same attribute holds the label. -/
theorem Unshared.setLabel (hu : c.Unshared) (hw : c.WellFormed) (h : c.setLabel s = .ok d) :
    d.Unshared ∧ d.WellFormed := by
  have hshape := hw.named.setLabel h
  obtain ⟨i, old, hi, ht, rfl⟩ := eq_relabelledAt_of_setLabel h
  have hattribute := labelAttribute?_relabelledAt_of_ne (s := s) ht (hu.attributes i hi)
  have hindex : (c.relabelledAt i s).labelIndex = c.labelIndex := by
    unfold labelIndex
    rw [hattribute]
  constructor
  · refine ⟨fun j hj => hu.attributes j (hindex ▸ hj), fun j hj => ?_⟩
    rw [show (c.relabelledAt i s).pool.nameIndex? = c.pool.nameIndex? from
      ConstantPool.nameIndex?_replaced ht s]
    exact hu.name j (hindex ▸ hj)
  · refine ⟨hshape.toShaped, ?_, fun a ha => hw.label a (hattribute ▸ ha)⟩
    exact (ConstantPool.className?_replaced_of_ne ht s _ (hu.name i hi)).trans hw.name

theorem Unshared.relabelled (hu : c.Unshared) (hw : c.WellFormed) (h : c.Relabelled d) :
    d.Unshared ∧ d.WellFormed := by
  induction h with
  | none => exact ⟨hu, hw⟩
  | more _ hs ih => exact ih.1.setLabel ih.2 hs

/-! ## Reading again -/

/-- After any labels, a class that was read is written so that it is read as it is, up to its name: that is
the one that the class refers to by then. It is refused only if the attribute that holds the label holds no
index by then. If the label is a text of its own, the very class is read. -/
theorem parse_toBytes_relabelled (hp : parse b = .ok c) (h : c.Relabelled d) :
    (∃ name, d.pool.className? d.thisClass = some name ∧
      match parse d.toBytes with
      | .ok x => x = { d with name } ∧ d.HoldsIndex
      | .error _ => ¬ d.HoldsIndex) ∧
    (c.Unshared → parse d.toBytes = .ok d ∧ d.pool.className? d.thisClass = some d.name) := by
  obtain ⟨hw, -⟩ := parse_eq_ok_iff.mp hp
  refine ⟨(hw.named.relabelled h).parse_toBytes, fun hu => ?_⟩
  obtain ⟨-, hd⟩ := hu.relabelled hw h
  exact ⟨parse_eq_ok_iff.mpr ⟨hd, rfl⟩, hd.name⟩

theorem parse_toBytes_relabelled_sharedName :
    (∃ name, (sharedName.relabelledAt 3 "Fuzz.java").pool.className? 2 = some name ∧
      match parse (sharedName.relabelledAt 3 "Fuzz.java").toBytes with
      | .ok x => x = { sharedName.relabelledAt 3 "Fuzz.java" with name } ∧
          (sharedName.relabelledAt 3 "Fuzz.java").HoldsIndex
      | .error _ => ¬ (sharedName.relabelledAt 3 "Fuzz.java").HoldsIndex) ∧
    (sharedName.Unshared → parse (sharedName.relabelledAt 3 "Fuzz.java").toBytes =
        .ok (sharedName.relabelledAt 3 "Fuzz.java") ∧
      (sharedName.relabelledAt 3 "Fuzz.java").pool.className? 2 = some "A") :=
  parse_toBytes_relabelled (by cbv : parse sharedName.toBytes = .ok sharedName)
    (.more .none setLabel_sharedName)

/-- A class may keep the name that it had, and be read under another. -/
example :
    ∃ d x, sharedName.Relabelled d ∧ parse d.toBytes = .ok x ∧ d.name = "A" ∧ x.name = "Fuzz.java" := by
  refine ⟨_, { sharedName.relabelledAt 3 "Fuzz.java" with name := "Fuzz.java" },
    .more .none setLabel_sharedName, ?_, rfl, rfl⟩
  cbv

/-- A class with two attributes for its label, named by two equal texts. The first holds the text that it is
named by, the second holds no index. -/
def twoLabels : ClassFile :=
  { sharedLabel with
    pool := ⟨#[none, some (.utf8 (Text.Modified.encode "SourceFile")), some (.classRef 3),
      some (.utf8 (Text.Modified.encode "A")), some (.utf8 (Text.Modified.encode "SourceFile"))]⟩
    attributes := [⟨1, Bytes.be16 1⟩, ⟨4, [0, 1, 2]⟩] }

/-- A class may take a label and be refused afterwards. -/
theorem twoLabels_refused :
    parse twoLabels.toBytes = .ok twoLabels ∧
      ∃ d, twoLabels.Relabelled d ∧ ∀ x, parse d.toBytes ≠ .ok x := by
  have hset : twoLabels.setLabel "Fuzz.java" = .ok (twoLabels.relabelledAt 1 "Fuzz.java") := by cbv
  refine ⟨by cbv, _, .more .none hset, fun x hx => ?_⟩
  have hrefused : (parse (twoLabels.relabelledAt 1 "Fuzz.java").toBytes).toOption = none := by cbv
  rw [hx] at hrefused
  exact absurd hrefused (Option.some_ne_none x)

end SourceLabel.ClassFile
