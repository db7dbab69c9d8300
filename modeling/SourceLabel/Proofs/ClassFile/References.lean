import SourceLabel.Proofs.ClassFile.Label

/-!
# What a new label changes

A class refers to the texts of its pool from many places, and several of them may refer to one text. A new
label takes the place of one text, so what is read through any other constant stays as it is. What is read
through that constant is the new label from then on, be it the name of the class itself.
-/
namespace SourceLabel.ClassFile

/-! ## References to texts -/

namespace Constant

/-- Which of its texts a constant is asked for. -/
inductive Part where
  | name
  | descriptor
deriving DecidableEq, Repr

/-- The index of a text that the constant at `i` stands for. A text stands for itself. -/
def textIndex? (i : Index) : Constant → Part → Option Index
  | .utf8 _, .name => some i
  | .classRef a, .name | .string a, .name | .module a, .name | .package a, .name => some a
  | .nameAndType a _, .name => some a
  | .nameAndType _ b, .descriptor | .methodType b, .descriptor => some b
  | _, _ => none

end Constant

/-- The index of the name of the class that the constant at an index refers to. -/
def ConstantPool.nameIndex? (p : ConstantPool) (i : Index) : Option Index :=
  match p.get? i with
  | some (.classRef name) => some name
  | _ => none

theorem ConstantPool.className?_eq (p : ConstantPool) (i : Index) :
    p.className? i = (p.nameIndex? i).bind p.lossyText? := by
  unfold className? nameIndex?
  cases p.get? i with
  | none => rfl
  | some k =>
    cases k with
    | classRef name => rfl
    | _ => rfl

inductive MemberKind where
  | field
  | method
deriving DecidableEq, Repr

inductive MemberPart where
  | name
  | descriptor
  | attributeName (n : Nat)
deriving DecidableEq, Repr

def Member.textIndex? (m : Member) : MemberPart → Option Index
  | .name => some m.name
  | .descriptor => some m.descriptor
  | .attributeName n => m.attributes[n]?.map Attribute.name

def members (c : ClassFile) : MemberKind → List Member
  | .field => c.fields
  | .method => c.methods

/-- A place in a class that refers to a text. Interfaces, attributes and members are counted from 0. -/
inductive Reference where
  | constant (i : Index) (part : Constant.Part)
  | thisClass
  | superClass
  | interface (n : Nat)
  | attributeName (n : Nat)
  | member (kind : MemberKind) (n : Nat) (part : MemberPart)
deriving DecidableEq, Repr

namespace Reference

def target? (c : ClassFile) : Reference → Option Index
  | constant i part => (c.pool.get? i).bind fun k => k.textIndex? i part
  | thisClass => c.pool.nameIndex? c.thisClass
  | superClass => c.pool.nameIndex? c.superClass
  | interface n => c.interfaces[n]?.bind c.pool.nameIndex?
  | attributeName n => c.attributes[n]?.map Attribute.name
  | member kind n part => (c.members kind)[n]?.bind fun m => m.textIndex? part

def text? (c : ClassFile) (r : Reference) : Option Bytes :=
  (r.target? c).bind c.pool.textBytes?

end Reference

/-! ## After the label has changed -/

section

variable {c c' : ClassFile} {i : Index} {old : Bytes} {s : String}

theorem ConstantPool.get?_of_textBytes? {p : ConstantPool} (h : p.textBytes? i = some old) :
    p.get? i = some (.utf8 old) := by
  unfold get?
  rw [getElem?_of_textBytes? h]
  rfl

theorem ConstantPool.eq_replaced_of_setText {p p' : ConstantPool} (h : p.setText i s = .ok p') :
    ∃ old, p.textBytes? i = some old ∧ p' = p.replaced i s := by
  unfold setText at h
  dsimp only at h
  by_cases hlong : maxTextLength < (Text.Modified.encode s).length
  · rw [if_pos hlong] at h
    exact nomatch h
  · rw [if_neg hlong] at h
    cases ht : p.textBytes? i with
    | none => simp [ht] at h
    | some old =>
      simp only [ht] at h
      exact ⟨old, rfl, (Except.ok.inj h).symm⟩

theorem eq_relabelledAt_of_setLabel (h : c.setLabel s = .ok c') :
    ∃ i old, c.labelIndex = .at i ∧ c.pool.textBytes? i = some old ∧ c' = c.relabelledAt i s := by
  unfold setLabel at h
  split at h
  · exact nomatch h
  · exact nomatch h
  · next i hi =>
    split at h
    · exact nomatch h
    · next p hp =>
      obtain ⟨old, ht, rfl⟩ := ConstantPool.eq_replaced_of_setText hp
      exact ⟨i, old, hi, ht, (Except.ok.inj h).symm⟩

theorem ConstantPool.nameIndex?_replaced {p : ConstantPool} (h : p.textBytes? i = some old) (s : String) :
    (p.replaced i s).nameIndex? = p.nameIndex? := by
  funext j
  unfold nameIndex?
  rw [get?_replaced h]
  by_cases hj : j = i
  · rw [if_pos hj, hj, get?_of_textBytes? h]
  · rw [if_neg hj]

theorem ConstantPool.className?_replaced_of_ne {p : ConstantPool} (h : p.textBytes? i = some old) (s : String)
    (j : Index) (hj : p.nameIndex? j ≠ some i) : (p.replaced i s).className? j = p.className? j := by
  rw [className?_eq, className?_eq, nameIndex?_replaced h]
  cases hn : p.nameIndex? j with
  | none => rfl
  | some name =>
    have hne : name ≠ i := fun he => hj (he ▸ hn)
    simp only [Option.bind_some, lossyText?, textBytes?_replaced h, if_neg hne]

theorem Reference.target?_relabelledAt (h : c.pool.textBytes? i = some old) (s : String) (r : Reference) :
    r.target? (c.relabelledAt i s) = r.target? c := by
  cases r with
  | constant j part =>
    have hg : (c.relabelledAt i s).pool.get? j =
        if j = i then some (.utf8 (Text.Modified.encode s)) else c.pool.get? j :=
      ConstantPool.get?_replaced h s j
    simp only [target?, hg]
    by_cases hj : j = i
    · rw [if_pos hj, hj, ConstantPool.get?_of_textBytes? h]
      cases part <;> rfl
    · rw [if_neg hj]
  | thisClass => exact congrFun (ConstantPool.nameIndex?_replaced h s) c.thisClass
  | superClass => exact congrFun (ConstantPool.nameIndex?_replaced h s) c.superClass
  | interface n => exact congrArg c.interfaces[n]?.bind (ConstantPool.nameIndex?_replaced h s)
  | attributeName n => rfl
  | member kind n part => cases kind <;> rfl

theorem Reference.text?_relabelledAt (h : c.pool.textBytes? i = some old) (s : String) (r : Reference) :
    r.text? (c.relabelledAt i s) =
      if r.target? c = some i then some (Text.Modified.encode s) else r.text? c := by
  have ht : (c.relabelledAt i s).pool.textBytes? =
      fun j => if j = i then some (Text.Modified.encode s) else c.pool.textBytes? j :=
    funext (ConstantPool.textBytes?_replaced h s)
  unfold text?
  rw [target?_relabelledAt h, ht]
  cases r.target? c with
  | none => rfl
  | some j => simp only [Option.bind_some, Option.some.injEq]

end

/-- The second class differs from the first in the text at `i` only, which is `s` now. -/
structure TextChanged (c c' : ClassFile) (i : Index) (s : String) : Prop where
  rest : c' = { c with pool := c'.pool }
  constants : ∀ j, c'.pool.get? j = if j = i then some (.utf8 (Text.Modified.encode s)) else c.pool.get? j
  targets : ∀ r : Reference, r.target? c' = r.target? c
  texts : ∀ r : Reference,
    r.text? c' = if r.target? c = some i then some (Text.Modified.encode s) else r.text? c
  classNames : ∀ j, c.pool.nameIndex? j ≠ some i → c'.pool.className? j = c.pool.className? j

/-- A new label changes one text of the class and nothing else. Whatever the class refers to through another
constant reads as before. Whatever it refers to through that constant reads the new label. -/
theorem textChanged_of_setLabel {c c' : ClassFile} {s : String} (h : c.setLabel s = .ok c') :
    ∃ i, c.labelIndex = .at i ∧ c.TextChanged c' i s := by
  obtain ⟨i, old, hi, ht, rfl⟩ := eq_relabelledAt_of_setLabel h
  refine ⟨i, hi, rfl, ConstantPool.get?_replaced ht s, ?_, ?_, ?_⟩
  · exact Reference.target?_relabelledAt ht s
  · exact Reference.text?_relabelledAt ht s
  · exact ConstantPool.className?_replaced_of_ne ht s

/-- A class with its own name for a label, in one and the same text. -/
def sharedName : ClassFile :=
  { sharedLabel with attributes := [⟨1, Bytes.be16 3⟩] }

theorem setLabel_sharedName :
    sharedName.setLabel "Fuzz.java" = .ok (sharedName.relabelledAt 3 "Fuzz.java") := by
  cbv

theorem textChanged_of_setLabel_sharedName :
    ∃ c' i, sharedName.setLabel "Fuzz.java" = .ok c' ∧ sharedName.labelIndex = .at i ∧
      sharedName.TextChanged c' i "Fuzz.java" := by
  obtain ⟨i, hi⟩ := textChanged_of_setLabel setLabel_sharedName
  exact ⟨_, i, setLabel_sharedName, hi⟩

/-- A class can get another name together with its label. -/
theorem sharedName_renamed :
    parse sharedName.toBytes = .ok sharedName ∧
      sharedName.pool.className? sharedName.thisClass = some "A" ∧
      ∃ c', sharedName.setLabel "Fuzz.java" = .ok c' ∧
        c'.pool.className? c'.thisClass = some "Fuzz.java" := by
  refine ⟨by cbv, by cbv, _, setLabel_sharedName, by cbv⟩

end SourceLabel.ClassFile
