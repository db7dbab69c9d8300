import Mathlib
import SourceLabel.ClassFile.Label
import SourceLabel.Proofs.ClassFile.Format
import SourceLabel.Proofs.Text.Modified

/-!
# A new label

A label is changed in the constant pool, where other things may share it. Of the texts in the pool only one
changes, so what becomes of the class is known: the attributes that were named through the old label are
named by the new one, and the first attribute that is then named for the label holds it. The label is the
new one exactly if that attribute refers to the text that was changed, or to an equal one.
-/
namespace SourceLabel.ClassFile

/-! ## The pool with another text -/

namespace ConstantPool

/-- The pool with the text `s` at an index, whatever stood there. -/
def replaced (p : ConstantPool) (i : Index) (s : String) : ConstantPool :=
  ⟨p.slots.setIfInBounds i.toNat (some (.utf8 (Text.Modified.encode s)))⟩

variable {p : ConstantPool} {i : Index} {old : Bytes}

theorem getElem?_of_textBytes? (h : p.textBytes? i = some old) :
    p.slots[i.toNat]? = some (some (.utf8 old)) := by
  unfold textBytes? get? at h
  rcases hs : p.slots[i.toNat]? with _ | slot
  · simp [hs] at h
  · rcases slot with _ | k
    · simp [hs] at h
    · cases k <;> simp_all

theorem setText_eq_ok (h : p.textBytes? i = some old) {s : String}
    (hs : (Text.Modified.encode s).length ≤ 65535) : p.setText i s = .ok (p.replaced i s) := by
  have hn : ¬ maxTextLength < (Text.Modified.encode s).length := Nat.not_lt.mpr hs
  simp only [setText, hn, if_false, h]
  rfl

theorem setText_of_lt {s : String} (hs : 65535 < (Text.Modified.encode s).length) :
    p.setText i s = .error (.tooLong (Text.Modified.encode s).length) :=
  if_pos hs

theorem get?_replaced (h : p.textBytes? i = some old) (s : String) (j : Index) :
    (p.replaced i s).get? j = if j = i then some (.utf8 (Text.Modified.encode s)) else p.get? j := by
  have hi := getElem?_of_textBytes? h
  obtain ⟨hlt, -⟩ := Array.getElem?_eq_some_iff.mp hi
  unfold get? replaced
  rw [Array.getElem?_setIfInBounds]
  by_cases hj : j = i
  · subst hj
    simp [hlt]
  · have hn : ¬ i.toNat = j.toNat := fun hn => hj (UInt16.toNat_inj.mp hn).symm
    simp only [hn, hj, if_false]

theorem textBytes?_replaced (h : p.textBytes? i = some old) (s : String) (j : Index) :
    (p.replaced i s).textBytes? j =
      if j = i then some (Text.Modified.encode s) else p.textBytes? j := by
  unfold textBytes?
  rw [get?_replaced h]
  by_cases hj : j = i
  · simp only [hj, if_true]
  · simp only [hj, if_false]

theorem text?_replaced (h : p.textBytes? i = some old) (s : String) (j : Index) :
    (p.replaced i s).text? j = if j = i then some s else p.text? j := by
  unfold text?
  rw [textBytes?_replaced h]
  by_cases hj : j = i
  · have hd : (Text.Modified.decode (Text.Modified.encode s)).toOption = some s := by
      rw [Text.Modified.decode_encode]
      rfl
    simp only [hj, if_true, bind, Option.bind, hd]
  · simp only [hj, if_false]

theorem isText_replaced (h : p.textBytes? i = some old) (s t : String) (j : Index) :
    (p.replaced i s).isText j t = if j = i then decide (s = t) else p.isText j t := by
  unfold isText
  rw [textBytes?_replaced h]
  by_cases hj : j = i
  · simp only [hj, if_true]
    by_cases hs : s = t
    · simp [hs]
    · have hn : Text.Modified.encode s ≠ Text.Modified.encode t :=
        fun he => hs (Text.Modified.encode_injective he)
      simp [hs, hn]
  · simp only [hj, if_false]

theorem text?_eq_some_iff {s : String} :
    p.text? i = some s ↔ ∃ b, p.textBytes? i = some b ∧ Text.Modified.decode b = .ok s := by
  unfold text?
  rw [Option.bind_eq_bind, Option.bind_eq_some_iff]
  refine exists_congr fun b => and_congr_right fun _ => ?_
  cases Text.Modified.decode b with
  | error e => exact iff_of_false nofun nofun
  | ok t => exact ⟨fun h => congrArg Except.ok (Option.some.inj h), fun h => congrArg some (Except.ok.inj h)⟩

theorem className?_replaced (h : p.textBytes? i = some old) (s : String) {j : Index} {name : String}
    (hj : p.className? j = some name) : ∃ name', (p.replaced i s).className? j = some name' := by
  unfold className? at hj ⊢
  split at hj
  · next n hn =>
    have hji : j ≠ i := by
      intro hji
      unfold textBytes? at h
      rw [hji] at hn
      simp [hn] at h
    simp only [get?_replaced h, hji, if_false, hn]
    unfold lossyText? at hj ⊢
    rw [textBytes?_replaced h]
    by_cases hni : n = i
    · exact ⟨_, by rw [if_pos hni]; rfl⟩
    · exact ⟨name, by rw [if_neg hni]; exact hj⟩
  · exact nomatch hj

/-- A text is no wide constant, so the slot after it stays as it is. -/
theorem laid_set {slots : List (Option Constant)} {blank : Bool} {n : Nat} {a b : Bytes}
    (h : Laid blank slots) (ha : slots[n]? = some (some (.utf8 a))) (hb : b.length < 65536) :
    Laid blank (slots.set n (some (.utf8 b))) := by
  induction slots generalizing blank n with
  | nil => exact nomatch ha
  | cons slot slots ih =>
    cases n with
    | zero =>
      obtain rfl : slot = some (.utf8 a) := Option.some.inj ha
      cases blank with
      | false => exact ⟨hb, h.2⟩
      | true => exact absurd h id
    | succ n =>
      have ha' : slots[n]? = some (some (.utf8 a)) := ha
      cases blank with
      | false =>
        cases slot with
        | none => exact absurd h id
        | some k => exact ⟨h.1, ih h.2 ha'⟩
      | true =>
        cases slot with
        | none =>
          have hl : Laid false slots := h
          exact ih hl ha'
        | some k => exact absurd h id

theorem WellFormed.replaced (hp : p.WellFormed) (h : p.textBytes? i = some old) {s : String}
    (hs : (Text.Modified.encode s).length ≤ 65535) : (p.replaced i s).WellFormed := by
  obtain ⟨hlt, slots, hslots, hl⟩ := hp
  have hi := getElem?_of_textBytes? h
  rw [← Array.getElem?_toList, hslots] at hi
  rcases hn : i.toNat with _ | n
  · rw [hn] at hi
    exact nomatch hi
  · rw [hn] at hi
    refine ⟨?_, slots.set n (some (.utf8 (Text.Modified.encode s))), ?_, ?_⟩
    · simpa [ConstantPool.replaced] using hlt
    · simp [ConstantPool.replaced, hslots, hn]
    · exact laid_set hl hi (Nat.lt_succ_of_le hs)

end ConstantPool

/-! ## The class with another label -/

/-- Is the attribute named for the label, once the text at `i` is `s`? -/
def namesLabelAfter (c : ClassFile) (i : Index) (s : String) (a : Attribute) : Bool :=
  if a.name = i then decide (s = labelAttributeName) else c.pool.isText a.name labelAttributeName

/-- With `s` in the place of the text at `i`, the class has the label `s`, and can be read again: the first
attribute that is then named for the label holds one index, of that text or of an equal one. -/
def KeepsLabel (c : ClassFile) (i : Index) (s : String) : Prop :=
  ∃ a k, c.attributes.find? (c.namesLabelAfter i s) = some a ∧ a.payload = Bytes.be16 k ∧
    (k = i ∨ c.pool.text? k = some s)

/-- The class with `s` in the place of the text at `i`. -/
def relabelledAt (c : ClassFile) (i : Index) (s : String) : ClassFile :=
  { c with pool := c.pool.replaced i s }

section

variable {c : ClassFile} {i : Index} {old : Bytes} {s : String}

theorem labelAttribute?_relabelledAt (h : c.pool.textBytes? i = some old) (s : String) :
    (c.relabelledAt i s).labelAttribute? = c.attributes.find? (c.namesLabelAfter i s) := by
  have hf : (fun a : Attribute => (c.pool.replaced i s).isText a.name labelAttributeName) =
      c.namesLabelAfter i s := by
    funext a
    rw [ConstantPool.isText_replaced h]
    rfl
  unfold labelAttribute? relabelledAt
  simp only [hf]

theorem labelIndex_of_payload {a : Attribute} {k : Index} (ha : c.labelAttribute? = some a)
    (hk : a.payload = Bytes.be16 k) : c.labelIndex = .at k := by
  have ho : Bytes.ofBE16 (UInt8.ofNat (k.toNat / 256)) (UInt8.ofNat k.toNat) = k := Bytes.ofBE16_be16 rfl
  unfold labelIndex
  simp only [ha, hk, Bytes.be16, ho]

theorem label?_eq_some {label : String} (h : c.label? = some label) :
    ∃ a k rest, c.labelAttribute? = some a ∧ a.payload = Bytes.be16 k ++ rest ∧ c.labelIndex = .at k ∧
      c.pool.text? k = some label := by
  unfold label? at h
  split at h
  · next k hk =>
    have hi := hk
    unfold labelIndex at hk
    split at hk
    · exact nomatch hk
    · next a ha =>
      split at hk
      · next hi lo rest hp =>
        obtain rfl := LabelIndex.at.inj hk
        exact ⟨a, _, rest, ha, by rw [hp, Bytes.be16_ofBE16]; rfl, hi, h⟩
      · exact nomatch hk
  · exact nomatch h

theorem textBytes?_of_text? {p : ConstantPool} {k : Index} {label : String}
    (h : p.text? k = some label) : ∃ b, p.textBytes? k = some b := by
  obtain ⟨b, hb, -⟩ := ConstantPool.text?_eq_some_iff.mp h
  exact ⟨b, hb⟩

/-- The class with another label is written so that it can be read, and then has the name that it refers to,
if the attribute that holds the label still has one index for its payload. -/
theorem parse_relabelledAt (hc : c.WellFormed) (h : c.pool.textBytes? i = some old)
    (hs : (Text.Modified.encode s).length ≤ 65535)
    (hl : ∀ a, (c.relabelledAt i s).labelAttribute? = some a → a.payload.length = 2) :
    ∃ name, parse (c.relabelledAt i s).toBytes = .ok { c.relabelledAt i s with name } := by
  obtain ⟨name, hname⟩ := ConstantPool.className?_replaced h s hc.name
  refine ⟨name, parse_eq_ok_iff.mpr ⟨?_, rfl⟩⟩
  exact ⟨⟨hc.pool.replaced h hs, hc.interfaces, hc.fields, hc.methods, hc.attributes⟩, hname, hl⟩

theorem keepsLabel_of_label? (h : c.pool.textBytes? i = some old)
    (hs : (c.relabelledAt i s).label? = some s)
    (hl : ∀ a, (c.relabelledAt i s).labelAttribute? = some a → a.payload.length = 2) :
    c.KeepsLabel i s := by
  obtain ⟨a, k, rest, ha, hp, -, ht⟩ := label?_eq_some hs
  have hr : rest = [] := by
    have h₂ := hl a ha
    rw [hp, List.length_append, Bytes.length_be16] at h₂
    exact List.eq_nil_of_length_eq_zero (by omega)
  rw [labelAttribute?_relabelledAt h] at ha
  refine ⟨a, k, ha, by rw [hp, hr, List.append_nil], ?_⟩
  have ht' : (c.pool.replaced i s).text? k = some s := ht
  rw [ConstantPool.text?_replaced h] at ht'
  by_cases hk : k = i
  · exact .inl hk
  · exact .inr (by rwa [if_neg hk] at ht')

theorem label?_of_keepsLabel (h : c.pool.textBytes? i = some old) (hk : c.KeepsLabel i s) :
    (c.relabelledAt i s).label? = some s ∧
      ∀ a, (c.relabelledAt i s).labelAttribute? = some a → a.payload.length = 2 := by
  obtain ⟨a, k, ha, hp, ht⟩ := hk
  rw [← labelAttribute?_relabelledAt h] at ha
  constructor
  · unfold label?
    rw [labelIndex_of_payload ha hp]
    change (c.pool.replaced i s).text? k = some s
    rw [ConstantPool.text?_replaced h]
    rcases ht with rfl | ht
    · rw [if_pos rfl]
    · rw [ht, ite_self]
  · intro a' ha'
    obtain rfl : a = a' := Option.some.inj (ha.symm.trans ha')
    simp [hp]

end

/-- A class that was read and has a label takes every label that fits in. The new label is the one that the
class has afterwards, also once it has been written and read again, exactly if the attribute that is then
named for the label still refers to it. -/
theorem parse_setLabel_iff {b : Bytes} {c : ClassFile} {old new : String} (hp : parse b = .ok c)
    (hl : c.label? = some old) (hn : (Text.Modified.encode new).length ≤ 65535) :
    ∃ i c', c.labelIndex = .at i ∧ c.setLabel new = .ok c' ∧
      ((c'.label? = some new ∧ ∃ c'', parse c'.toBytes = .ok c'' ∧ c''.label? = some new) ↔
        c.KeepsLabel i new) := by
  obtain ⟨hw, -⟩ := parse_eq_ok_iff.mp hp
  obtain ⟨-, i, -, -, -, hi, ht⟩ := label?_eq_some hl
  obtain ⟨t, htext⟩ := textBytes?_of_text? ht
  have hset : c.setLabel new = .ok (c.relabelledAt i new) := by
    unfold setLabel
    simp only [hi, ConstantPool.setText_eq_ok htext hn]
    rfl
  refine ⟨i, c.relabelledAt i new, hi, hset, ?_⟩
  constructor
  · rintro ⟨hlabel, c'', hparse, -⟩
    obtain ⟨hw'', hb⟩ := parse_eq_ok_iff.mp hparse
    have hshape : (c.relabelledAt i new).Shaped :=
      ⟨hw.pool.replaced htext hn, hw.interfaces, hw.fields, hw.methods, hw.attributes⟩
    have he := toBytes_injective hw''.toShaped hshape hb.symm
    refine keepsLabel_of_label? htext hlabel fun a ha => hw''.label a ?_
    rw [he]
    exact ha
  · intro hk
    obtain ⟨hlabel, hpayload⟩ := label?_of_keepsLabel htext hk
    obtain ⟨name, hparse⟩ := parse_relabelledAt hw htext hn hpayload
    exact ⟨hlabel, _, hparse, hlabel⟩

/-- A class whose label is the very text that names the attribute for it. -/
def sharedLabel : ClassFile where
  minor := 0
  major := 52
  pool := ⟨#[none, some (.utf8 (Text.Modified.encode "SourceFile")), some (.classRef 3),
    some (.utf8 (Text.Modified.encode "A"))]⟩
  access := 0x21
  thisClass := 2
  superClass := 0
  interfaces := []
  fields := []
  methods := []
  attributes := [⟨1, Bytes.be16 1⟩]
  name := "A"

theorem parse_setLabel_iff_sharedLabel :
    ∃ i c', sharedLabel.labelIndex = .at i ∧ sharedLabel.setLabel "Fuzz.java" = .ok c' ∧
      ((c'.label? = some "Fuzz.java" ∧
          ∃ c'', parse c'.toBytes = .ok c'' ∧ c''.label? = some "Fuzz.java") ↔
        sharedLabel.KeepsLabel i "Fuzz.java") :=
  parse_setLabel_iff (by cbv : parse sharedLabel.toBytes = .ok sharedLabel)
    (by cbv : sharedLabel.label? = some "SourceFile") (by decide +kernel)

/-- The new label of a class can be lost: the attribute for it is no longer named so. -/
theorem sharedLabel_lost :
    parse sharedLabel.toBytes = .ok sharedLabel ∧ sharedLabel.label? = some "SourceFile" ∧
      (Text.Modified.encode "Fuzz.java").length ≤ 65535 ∧
      ∃ c', sharedLabel.setLabel "Fuzz.java" = .ok c' ∧ c'.label? = none ∧
        ∃ c'', parse c'.toBytes = .ok c'' ∧ c''.label? = none := by
  refine ⟨by cbv, by cbv, by decide +kernel, sharedLabel.relabelledAt 1 "Fuzz.java", ?_, ?_,
    sharedLabel.relabelledAt 1 "Fuzz.java", ?_, ?_⟩
  · cbv
  · cbv
  · cbv
  · cbv

/-- No label is lost unless an attribute of the class is named through the label itself. -/
theorem KeepsLabel.of_unshared {b : Bytes} {c : ClassFile} {old new : String} {i : Index}
    (hp : parse b = .ok c) (hl : c.label? = some old) (hi : c.labelIndex = .at i)
    (hu : ∀ a ∈ c.attributes, a.name ≠ i) : c.KeepsLabel i new := by
  obtain ⟨hw, -⟩ := parse_eq_ok_iff.mp hp
  obtain ⟨a, k, rest, ha, hpay, hk, -⟩ := label?_eq_some hl
  obtain rfl : i = k := LabelIndex.at.inj (hi.symm.trans hk)
  have hr : rest = [] := by
    have h₂ := hw.label a ha
    rw [hpay, List.length_append, Bytes.length_be16] at h₂
    exact List.eq_nil_of_length_eq_zero (by omega)
  have hf : c.attributes.find? (c.namesLabelAfter i new) = c.labelAttribute? := by
    refine List.find?_congr fun a ha => ?_
    unfold namesLabelAfter
    rw [if_neg (hu a ha)]
  exact ⟨a, i, hf.trans ha, by rw [hpay, hr, List.append_nil], .inl rfl⟩

end SourceLabel.ClassFile
