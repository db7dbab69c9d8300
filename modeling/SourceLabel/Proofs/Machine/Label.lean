import SourceLabel.Proofs.ClassFile.Relabelled
import SourceLabel.Proofs.Machine.ClassFile

/-!
# A label written in its place

The definition makes a new class with the label that is set. On a machine the class itself is changed: its
index is fetched, the new text is encoded, and only when nothing can be refused any more is the old text
overwritten in the pool. What this does to the bytes of the class is told by cutting them at that text. The
length and the content of the text are all that changes, however far behind other constants the text
stands, and whatever comes after it.
-/
namespace SourceLabel.ClassFile

/-! ## The bytes around a text -/

namespace ConstantPool

theorem slotBytes_append (a b : List (Option Constant)) : slotBytes (a ++ b) = slotBytes a ++ slotBytes b := by
  rw [slotBytes, List.filterMap_append, List.flatMap_append]
  rfl

variable {slots : List (Option Constant)} {n : Nat} {k : Constant}

theorem slotBytes_of_getElem? (h : slots[n]? = some (some k)) :
    slotBytes slots = slotBytes (slots.take n) ++ (k.toBytes ++ slotBytes (slots.drop (n + 1))) := by
  obtain ⟨hlt, hn⟩ := List.getElem?_eq_some_iff.mp h
  rw [← slotBytes_some, ← slotBytes_append, ← hn, List.cons_getElem_drop_succ, List.take_append_drop]

theorem textBytes?_eq_some_iff {p : ConstantPool} {i : Index} {old : Bytes} :
    p.textBytes? i = some old ↔ p.get? i = some (.utf8 old) := by
  refine ⟨get?_of_textBytes?, fun h => ?_⟩
  rw [textBytes?, h]

end ConstantPool

variable {c d : ClassFile} {i : Index} {old : Bytes} {s : String}

/-- What is written before the length of the text at `i`; the last byte is the tag of the text. -/
def bytesBefore (c : ClassFile) (i : Index) : Bytes :=
  Bytes.be32 magic ++ (Bytes.be16 c.minor ++ (Bytes.be16 c.major ++ (Bytes.be16 c.pool.count ++
    (ConstantPool.slotBytes (c.pool.slots.toList.take i.toNat) ++ [1]))))

/-- What is written after the text at `i`. -/
def bytesAfter (c : ClassFile) (i : Index) : Bytes :=
  ConstantPool.slotBytes (c.pool.slots.toList.drop (i.toNat + 1)) ++
    (Bytes.be16 c.access ++ (Bytes.be16 c.thisClass ++ (Bytes.be16 c.superClass ++
    (Bytes.be16 (UInt16.ofNat c.interfaces.length) ++ (c.interfaces.flatMap Bytes.be16 ++
    (Member.listToBytes c.fields ++ (Member.listToBytes c.methods ++
    Attribute.listToBytes c.attributes)))))))

theorem toBytes_cut (h : c.pool.textBytes? i = some old) :
    c.toBytes = c.bytesBefore i ++ ((Constant.utf8 old).body ++ c.bytesAfter i) := by
  have hslot := ConstantPool.getElem?_of_textBytes? h
  rw [← Array.getElem?_toList] at hslot
  have hpool : c.pool.toBytes = Bytes.be16 c.pool.count ++ ConstantPool.slotBytes c.pool.slots.toList := rfl
  rw [toBytes, hpool, ConstantPool.slotBytes_of_getElem? hslot]
  simp only [bytesBefore, bytesAfter, Constant.toBytes, Constant.tag, List.append_assoc, List.cons_append,
    List.nil_append]

theorem bytesBefore_relabelledAt (c : ClassFile) (i : Index) (s : String) :
    (c.relabelledAt i s).bytesBefore i = c.bytesBefore i := by
  have hcount : (c.pool.replaced i s).count = c.pool.count := by
    rw [ConstantPool.count, ConstantPool.replaced, Array.size_setIfInBounds]
    rfl
  have htake : (c.pool.replaced i s).slots.toList.take i.toNat = c.pool.slots.toList.take i.toNat := by
    rw [ConstantPool.replaced, Array.toList_setIfInBounds, List.take_set_of_le (Nat.le_refl _)]
  rw [bytesBefore, relabelledAt, hcount, htake]
  rfl

theorem bytesAfter_relabelledAt (c : ClassFile) (i : Index) (s : String) :
    (c.relabelledAt i s).bytesAfter i = c.bytesAfter i := by
  have hdrop : (c.pool.replaced i s).slots.toList.drop (i.toNat + 1) =
      c.pool.slots.toList.drop (i.toNat + 1) := by
    rw [ConstantPool.replaced, Array.toList_setIfInBounds, List.drop_set_of_lt (Nat.lt_succ_self _)]
  rw [bytesAfter, relabelledAt, hdrop]
  rfl

theorem toBytes_relabelledAt (h : c.pool.textBytes? i = some old) (s : String) :
    (c.relabelledAt i s).toBytes =
      c.bytesBefore i ++ ((Constant.utf8 (Text.Modified.encode s)).body ++ c.bytesAfter i) := by
  have htext : (c.relabelledAt i s).pool.textBytes? i = some (Text.Modified.encode s) :=
    (ConstantPool.textBytes?_replaced h s i).trans (if_pos rfl)
  rw [toBytes_cut htext, bytesBefore_relabelledAt, bytesAfter_relabelledAt]

/-! ## Labels that are taken -/

/-- The attribute for the label holds the index `i` of the text `old`, and nothing else. -/
def LabelAt (c : ClassFile) (i : Index) (old : Bytes) : Prop :=
  ∃ a, c.labelAttribute? = some a ∧ a.payload = Bytes.be16 i ∧ c.pool.get? i = some (.utf8 old)

theorem LabelAt.textBytes? (h : c.LabelAt i old) : c.pool.textBytes? i = some old := by
  obtain ⟨-, -, -, htext⟩ := h
  exact ConstantPool.textBytes?_eq_some_iff.mpr htext

theorem WellFormed.labelAt (hc : c.WellFormed) (hi : c.labelIndex = .at i) (ht : c.pool.textBytes? i = some old) :
    c.LabelAt i old := by
  obtain ⟨a, ha, hindex⟩ := labelIndex_eq_at_iff.mp hi
  obtain ⟨hi, lo, hpayload⟩ := List.length_eq_two.mp (hc.label a ha)
  refine ⟨a, ha, ?_, ConstantPool.textBytes?_eq_some_iff.mp ht⟩
  rw [Attribute.index?, hpayload, Option.some.injEq] at hindex
  rw [hpayload, ← hindex, Bytes.be16_ofBE16]

theorem LabelAt.setLabel (h : c.LabelAt i old) (hs : (Text.Modified.encode s).length ≤ 65535) :
    c.setLabel s = .ok (c.relabelledAt i s) := by
  have htext := h.textBytes?
  obtain ⟨a, ha, hpayload, -⟩ := h
  rw [ClassFile.setLabel, labelIndex_of_payload ha hpayload]
  simp only [ConstantPool.setText_eq_ok htext hs]
  rfl

/-- A label is taken exactly if it fits and there is a text in its place. -/
theorem WellFormed.setLabel_eq_ok_iff (hc : c.WellFormed) :
    c.setLabel s = .ok d ↔
      (Text.Modified.encode s).length ≤ 65535 ∧ ∃ i old, c.LabelAt i old ∧ d = c.relabelledAt i s := by
  constructor
  · intro h
    obtain ⟨i, old, hi, ht, rfl⟩ := eq_relabelledAt_of_setLabel h
    exact ⟨length_le_of_setLabel h, i, old, hc.labelAt hi ht, rfl⟩
  · rintro ⟨hs, i, old, hat, rfl⟩
    exact hat.setLabel hs

end SourceLabel.ClassFile

namespace SourceLabel.Machine

open ClassFile

/-! ## The machine -/

/-- A run that works on a class in its place. -/
abbrev Updating := ExceptT ClassError (StateT ClassFile Checked)

def overwrite (i : Index) (s : String) : Updating Unit := do
  let text := Text.Modified.encode s
  if ConstantPool.maxTextLength < text.length then
    throw ⟨0, .tooLong text.length⟩
  let c ← get
  match c.pool.get? i with
  | some (.utf8 _) => set { c with pool := ⟨c.pool.slots.setIfInBounds i.toNat (some (.utf8 text))⟩ }
  | _ => throw ⟨0, .notUtf8 i⟩

def setLabel (s : String) : Updating Unit := do
  let c ← get
  match ← (Parser.labelIndex? c : Checked (Option Index)) with
  | none => throw ⟨0, .noLabel c.name⟩
  | some i => overwrite i s

variable {c : ClassFile} {b : Bytes}

/-- How a change of a class ends, and the class after it. -/
def updated (c : ClassFile) : Except ClassError ClassFile → Except ClassError Unit × ClassFile
  | .ok d => (.ok (), d)
  | .error e => (.error e, c)

theorem overwrite_eq (c : ClassFile) (i : Index) (s : String) :
    (overwrite i s).run.run c = .ok (updated c (match c.pool.setText i s with
      | .error fault => .error ⟨0, fault⟩
      | .ok pool => .ok { c with pool })) := by
  unfold ConstantPool.setText ConstantPool.textBytes?
  by_cases hlong : ConstantPool.maxTextLength < (Text.Modified.encode s).length
  · simp only [overwrite, hlong, if_true]
    rfl
  · have hrun : (overwrite i s).run.run c = (match c.pool.get? i with
        | some (.utf8 _) => set { c with pool := ⟨c.pool.slots.setIfInBounds i.toNat
            (some (.utf8 (Text.Modified.encode s)))⟩ }
        | _ => throw ⟨0, .notUtf8 i⟩ : Updating Unit).run.run c := by
      simp only [overwrite, hlong, if_false]
      rfl
    rw [hrun]
    simp only [hlong, if_false]
    rcases c.pool.get? i with _ | k
    · rfl
    · cases k <;> rfl

theorem setLabel_eq (hc : c.WellFormed) (s : String) :
    (setLabel s).run.run c = .ok (updated c (c.setLabel s)) := by
  have hrun : (setLabel s).run.run c = (do
      match ← (Parser.labelIndex? c : Checked (Option Index)) with
      | none => throw ⟨0, .noLabel c.name⟩
      | some i => overwrite i s : Updating Unit).run.run c := rfl
  rw [hrun, Parser.labelIndex?_eq hc]
  cases ha : c.labelAttribute? with
  | none =>
    have hindex : c.labelIndex = .absent := by rw [labelIndex, ha]
    rw [ClassFile.setLabel, hindex]
    rfl
  | some a =>
    obtain ⟨hi, lo, hpayload⟩ := List.length_eq_two.mp (hc.label a ha)
    have hindex : c.labelIndex = .at (Bytes.ofBE16 hi lo) := by
      simp only [labelIndex, ha, hpayload]
    rw [Option.bind_some, Attribute.index?, hpayload, ClassFile.setLabel, hindex]
    exact overwrite_eq c _ s

/-- A class that was read takes a label exactly if its attribute for the label leads to a text and the label fits
the length of a text. If it does not take the label, the class in its place is as before in all its parts. If it does,
the length and the content of this text are written anew, and every byte before and after them is the same. -/
theorem setLabel_in_place (h : ClassFile.parse b = .ok c) (s : String) :
    ((∃ d, c.setLabel s = .ok d) ↔ (∃ i old, c.LabelAt i old) ∧ (Text.Modified.encode s).length ≤ 65535) ∧
    (∀ e, c.setLabel s = .error e → (setLabel s).run.run c = .ok (.error e, c)) ∧
    (∀ d, c.setLabel s = .ok d → (setLabel s).run.run c = .ok (.ok (), d) ∧ ∃ i old, c.LabelAt i old ∧
      b = c.bytesBefore i ++ ((Constant.utf8 old).body ++ c.bytesAfter i) ∧
      d.toBytes = c.bytesBefore i ++ ((Constant.utf8 (Text.Modified.encode s)).body ++ c.bytesAfter i)) := by
  obtain ⟨hc, rfl⟩ := parse_eq_ok_iff.mp h
  have hrun := setLabel_eq hc s
  refine ⟨⟨fun ⟨d, hset⟩ => ?_, fun ⟨⟨i, old, hat⟩, hs⟩ => ⟨_, hat.setLabel hs⟩⟩, fun e hset => ?_, fun d hset => ?_⟩
  · obtain ⟨hs, i, old, hat, -⟩ := hc.setLabel_eq_ok_iff.mp hset
    exact ⟨⟨i, old, hat⟩, hs⟩
  · rw [hrun, hset]
    rfl
  · rw [hrun, hset]
    obtain ⟨-, i, old, hat, rfl⟩ := hc.setLabel_eq_ok_iff.mp hset
    have htext := hat.textBytes?
    exact ⟨rfl, i, old, hat, toBytes_cut htext, toBytes_relabelledAt htext s⟩

/-- A class whose label stands between other constants, some of them wide. -/
def buriedLabel : ClassFile :=
  { sharedLabel with
    pool := ⟨#[none, some (.long 7), none, some (.utf8 (Text.Modified.encode "SourceFile")), some (.double 1), none,
      some (.utf8 (Text.Modified.encode "X.java")), some (.classRef 8), some (.utf8 (Text.Modified.encode "A"))]⟩
    thisClass := 7
    attributes := [⟨3, Bytes.be16 6⟩] }

theorem setLabel_in_place_buriedLabel :
    ((∃ d, buriedLabel.setLabel "Other.java" = .ok d) ↔
      (∃ i old, buriedLabel.LabelAt i old) ∧ (Text.Modified.encode "Other.java").length ≤ 65535) ∧
    (∀ e, buriedLabel.setLabel "Other.java" = .error e →
      (setLabel "Other.java").run.run buriedLabel = .ok (.error e, buriedLabel)) ∧
    (∀ d, buriedLabel.setLabel "Other.java" = .ok d →
      (setLabel "Other.java").run.run buriedLabel = .ok (.ok (), d) ∧ ∃ i old, buriedLabel.LabelAt i old ∧
        buriedLabel.toBytes =
          buriedLabel.bytesBefore i ++ ((Constant.utf8 old).body ++ buriedLabel.bytesAfter i) ∧
        d.toBytes = buriedLabel.bytesBefore i ++
          ((Constant.utf8 (Text.Modified.encode "Other.java")).body ++ buriedLabel.bytesAfter i)) :=
  setLabel_in_place (by cbv : ClassFile.parse buriedLabel.toBytes = .ok buriedLabel) "Other.java"

end SourceLabel.Machine
