import SourceLabel.Proofs.ClassFile.References

/-!
# Which attribute holds the label

The attribute that holds the label is found by its name, so it may become another one when a label is changed
through which an attribute is named. That an attribute holds an index is looked at only when the class is
read, and only for the attribute that holds the label by then.

Of all that a new label is, it matters here only whether it is the name that is looked for. So which indices
are marked as leading to that name says which attribute holds the label, and the marks change one at a time:
the mark of the index that this attribute holds comes or goes, as one likes. An attribute without an index is
reached by some labels exactly if such changes lead to marks under which it holds the label.
-/
namespace SourceLabel.ClassFile

/-! ## Labels one after another, taken or not -/

def attempt (c : ClassFile) (s : String) : ClassFile :=
  match c.setLabel s with
  | .ok d => d
  | .error _ => c

def attempts (c : ClassFile) (labels : List String) : ClassFile :=
  labels.foldl attempt c

/-- The index that a payload begins with. -/
def Attribute.index? (a : Attribute) : Option Index :=
  match a.payload with
  | hi :: lo :: _ => some (Bytes.ofBE16 hi lo)
  | _ => none

/-- The indices that lead to the name of the attribute for the label. -/
def marks (c : ClassFile) (i : Index) : Bool :=
  c.pool.isText i labelAttributeName

/-- The attribute that holds the label under these marks. -/
def holder? (c : ClassFile) (marks : Index → Bool) : Option Attribute :=
  c.attributes.find? fun a => marks a.name

variable {c d : ClassFile} {s : String} {i : Index} {old : Bytes} {a : Attribute}

theorem labelAttribute?_eq_holder? (c : ClassFile) : c.labelAttribute? = c.holder? c.marks :=
  rfl

theorem labelIndex_eq_at_iff :
    c.labelIndex = .at i ↔ ∃ a, c.labelAttribute? = some a ∧ a.index? = some i := by
  unfold labelIndex Attribute.index?
  cases c.labelAttribute? with
  | none => simp
  | some a =>
    rcases ha : a.payload with _ | ⟨hi, _ | ⟨lo, rest⟩⟩
    · simp [ha]
    · simp [ha]
    · simp [ha]

theorem labelIndex_eq_short_iff {n : Nat} :
    c.labelIndex = .short n ↔ ∃ a, c.labelAttribute? = some a ∧ a.payload.length = n ∧ n < 2 := by
  unfold labelIndex
  cases c.labelAttribute? with
  | none => simp
  | some a =>
    rcases ha : a.payload with _ | ⟨hi, _ | ⟨lo, rest⟩⟩
    · simp [ha, eq_comm]
      omega
    · simp [ha, eq_comm]
      omega
    · simp [ha]
      omega

/-- A label that is taken stands where the attribute for the label says. -/
theorem attempt_cases (c : ClassFile) (s : String) :
    c.attempt s = c ∨ ∃ a i old, c.labelAttribute? = some a ∧ a.index? = some i ∧
      c.pool.textBytes? i = some old ∧ c.attempt s = c.relabelledAt i s := by
  unfold attempt
  cases h : c.setLabel s with
  | error e => exact .inl rfl
  | ok d =>
    obtain ⟨i, old, hi, ht, rfl⟩ := eq_relabelledAt_of_setLabel h
    obtain ⟨a, ha, hindex⟩ := labelIndex_eq_at_iff.mp hi
    exact .inr ⟨a, i, old, ha, hindex, ht, rfl⟩

theorem attempt_eq_relabelledAt (ha : c.labelAttribute? = some a) (hi : a.index? = some i)
    (ht : c.pool.textBytes? i = some old) (hs : (Text.Modified.encode s).length ≤ 65535) :
    c.attempt s = c.relabelledAt i s := by
  have hat : c.labelIndex = .at i := labelIndex_eq_at_iff.mpr ⟨a, ha, hi⟩
  unfold attempt setLabel
  simp only [hat, ConstantPool.setText_eq_ok ht hs]
  rfl

theorem marks_relabelledAt (ht : c.pool.textBytes? i = some old) (s : String) :
    (c.relabelledAt i s).marks = Function.update c.marks i (decide (s = labelAttributeName)) := by
  funext j
  rw [marks, relabelledAt, ConstantPool.isText_replaced ht, Function.update_apply]
  rfl

/-! ## Marks -/

/-- The marks that come about when a mark changes, time after time: always that of the index that the holder of
the label holds, if there is a text at this index. -/
inductive Marked (c : ClassFile) : (Index → Bool) → Prop
  | now : Marked c c.marks
  | change {marks : Index → Bool} {a : Attribute} {i : Index} {old : Bytes} (mark : Bool) : Marked c marks →
      c.holder? marks = some a → a.index? = some i → c.pool.textBytes? i = some old →
      Marked c (Function.update marks i mark)

/-- What no label changes: the attributes, and where there are texts. -/
structure SameFrame (c d : ClassFile) : Prop where
  attributes : d.attributes = c.attributes
  texts : ∀ i, (d.pool.textBytes? i).isSome = (c.pool.textBytes? i).isSome

theorem SameFrame.relabelledAt (h : SameFrame c d) (ht : d.pool.textBytes? i = some old) (s : String) :
    SameFrame c (d.relabelledAt i s) := by
  refine ⟨h.attributes, fun j => ?_⟩
  rw [← h.texts j, ClassFile.relabelledAt, ConstantPool.textBytes?_replaced ht]
  by_cases hj : j = i
  · rw [if_pos hj, hj, ht]
    rfl
  · rw [if_neg hj]

theorem SameFrame.holder?_eq (h : SameFrame c d) (marks : Index → Bool) : d.holder? marks = c.holder? marks := by
  rw [holder?, holder?, h.attributes]

theorem SameFrame.text (h : SameFrame c d) (ht : d.pool.textBytes? i = some old) :
    ∃ text, c.pool.textBytes? i = some text := by
  refine Option.isSome_iff_exists.mp ?_
  rw [← h.texts i, ht]
  rfl

theorem SameFrame.symm (h : SameFrame c d) : SameFrame d c :=
  ⟨h.attributes.symm, fun i => (h.texts i).symm⟩

theorem SameFrame.attempt (h : SameFrame c d) (hm : c.Marked d.marks) (s : String) :
    SameFrame c (d.attempt s) ∧ c.Marked (d.attempt s).marks := by
  rcases d.attempt_cases s with he | ⟨a, i, old, ha, hi, ht, he⟩
  · rw [he]
    exact ⟨h, hm⟩
  · rw [he]
    obtain ⟨text, htext⟩ := h.text ht
    have ha' : c.holder? d.marks = some a := (h.holder?_eq d.marks).symm.trans ha
    refine ⟨h.relabelledAt ht s, ?_⟩
    rw [marks_relabelledAt ht]
    exact .change _ hm ha' hi htext

theorem marked_attempts (c : ClassFile) (labels : List String) :
    SameFrame c (c.attempts labels) ∧ c.Marked (c.attempts labels).marks := by
  have hrun : ∀ d : ClassFile, SameFrame c d → c.Marked d.marks →
      SameFrame c (d.attempts labels) ∧ c.Marked (d.attempts labels).marks := by
    induction labels with
    | nil => exact fun d hd hm => ⟨hd, hm⟩
    | cons s labels ih =>
      intro d hd hm
      obtain ⟨hd', hm'⟩ := hd.attempt hm s
      exact ih (d.attempt s) hd' hm'
  exact hrun c ⟨rfl, fun _ => rfl⟩ .now

theorem exists_attempts_of_marked {marks : Index → Bool} (h : c.Marked marks) :
    ∃ labels, (c.attempts labels).marks = marks := by
  induction h with
  | now => exact ⟨[], rfl⟩
  | @change marks a i old mark _ ha hi ht ih =>
    obtain ⟨labels, hlabels⟩ := ih
    obtain ⟨hframe, -⟩ := c.marked_attempts labels
    obtain ⟨text, htext⟩ := hframe.symm.text ht
    have ha' : (c.attempts labels).labelAttribute? = some a := by
      rw [labelAttribute?_eq_holder?, hlabels, hframe.holder?_eq]
      exact ha
    refine ⟨labels ++ [if mark then labelAttributeName else ""], ?_⟩
    have hfits : (Text.Modified.encode (if mark then labelAttributeName else "")).length ≤ 65535 := by
      cases mark <;> decide +kernel
    rw [attempts, List.foldl_append]
    change ((c.attempts labels).attempt _).marks = _
    rw [attempt_eq_relabelledAt ha' hi htext hfits, marks_relabelledAt htext, hlabels]
    cases mark <;> rfl

/-! ## Holders without an index -/

/-- If no attribute is named through the label, the same attribute holds it under all marks that come about. -/
theorem holder?_of_marked {marks : Index → Bool} (h : c.Marked marks)
    (hu : ∀ i, c.labelIndex = .at i → ∀ a ∈ c.attributes, a.name ≠ i) : c.holder? marks = c.labelAttribute? := by
  induction h with
  | now => rfl
  | @change marks a i old mark _ ha hi _ ih =>
    have hat : c.labelIndex = .at i := labelIndex_eq_at_iff.mpr ⟨a, ih ▸ ha, hi⟩
    rw [← ih]
    refine List.find?_congr fun x hx => ?_
    rw [Function.update_of_ne (hu i hat x hx)]

/-- Some labels lead to a class whose label has no index to be read exactly if changes of marks lead to an
attribute that holds the label and has a payload of less than two bytes. No labels do so for a class that was
read and names none of its attributes through its label. -/
theorem labelIndex_attempts_short_iff (c : ClassFile) :
    ((∃ labels n, (c.attempts labels).labelIndex = .short n) ↔
      ∃ marks a, c.Marked marks ∧ c.holder? marks = some a ∧ a.payload.length < 2) ∧
    ∀ b, parse b = .ok c → (∀ i, c.labelIndex = .at i → ∀ a ∈ c.attributes, a.name ≠ i) →
      ∀ labels n, (c.attempts labels).labelIndex ≠ .short n := by
  have hforward : ∀ labels n, (c.attempts labels).labelIndex = .short n →
      ∃ marks a, c.Marked marks ∧ c.holder? marks = some a ∧ a.payload.length < 2 := by
    intro labels n hshort
    obtain ⟨a, ha, rfl, hlt⟩ := labelIndex_eq_short_iff.mp hshort
    obtain ⟨hframe, hmarked⟩ := c.marked_attempts labels
    exact ⟨_, a, hmarked, (hframe.holder?_eq _).symm.trans ha, hlt⟩
  refine ⟨⟨fun ⟨labels, n, hshort⟩ => hforward labels n hshort, ?_⟩, ?_⟩
  · rintro ⟨marks, a, hmarked, ha, hlt⟩
    obtain ⟨labels, rfl⟩ := exists_attempts_of_marked hmarked
    obtain ⟨hframe, -⟩ := c.marked_attempts labels
    exact ⟨labels, _, labelIndex_eq_short_iff.mpr ⟨a, (hframe.holder?_eq _).trans ha, rfl, hlt⟩⟩
  · intro b hp hu labels n hshort
    obtain ⟨marks, a, hmarked, ha, hlt⟩ := hforward labels n hshort
    obtain ⟨hw, -⟩ := parse_eq_ok_iff.mp hp
    have htwo := hw.label a ((holder?_of_marked hmarked hu).symm.trans ha)
    omega

/-- A class with two attributes for its label, named by two equal texts. The first holds the text that it is
named by, the second holds one byte. -/
def shortSecond : ClassFile :=
  { sharedLabel with
    pool := ⟨#[none, some (.utf8 (Text.Modified.encode "SourceFile")), some (.classRef 3),
      some (.utf8 (Text.Modified.encode "A")), some (.utf8 (Text.Modified.encode "SourceFile"))]⟩
    attributes := [⟨1, Bytes.be16 1⟩, ⟨4, [0]⟩] }

/-- After one label there is no index to be read. -/
theorem shortSecond_short :
    parse shortSecond.toBytes = .ok shortSecond ∧ (∃ d, shortSecond.setLabel "Fuzz.java" = .ok d) ∧
      (shortSecond.attempts ["Fuzz.java"]).labelIndex = .short 1 := by
  have hset : shortSecond.setLabel "Fuzz.java" = .ok (shortSecond.relabelledAt 1 "Fuzz.java") := by cbv
  exact ⟨by cbv, ⟨_, hset⟩, by cbv⟩

end SourceLabel.ClassFile
