import SourceLabel.Proofs.ClassFile.Label
import SourceLabel.Proofs.Text.Forms

/-!
# Two ways to compare a text

Is the text of a constant this one? The bytes of the constant can be compared with the ones that the text is
written with, or the constant can be decoded and the texts compared. The first is how an attribute is found by
its name, the second is what one sees who reads the name.

Whatever passes the first test passes the second. The two differ where a unit of the constant is written in more
bytes than it has to be, and nowhere else: decoding takes such bytes, and encoding never writes them.
-/
namespace SourceLabel.ClassFile

open Text.Modified

namespace ConstantPool

variable {p : ConstantPool} {i : Index} {s : String}

theorem isText_eq_true_iff : p.isText i s = true ↔ p.textBytes? i = some (encode s) :=
  beq_iff_eq

theorem text?_of_isText (h : p.isText i s = true) : p.text? i = some s :=
  text?_eq_some_iff.mpr ⟨encode s, isText_eq_true_iff.mp h, decode_encode s⟩

theorem isText_iff_of_text? (h : p.text? i = some s) :
    p.isText i s = true ↔ (p.textBytes? i).any overlong = false := by
  obtain ⟨b, hb, hdecode⟩ := text?_eq_some_iff.mp h
  rw [isText_eq_true_iff, hb, Option.some.injEq, Option.any_some, eq_comm (a := b), encode_eq_iff]
  exact and_iff_right hdecode

/-- The bytes that are decoded into a text are those in which each of its units has one of its forms, and it is
written with the ones among them in which no form is too long. So a constant has the bytes of a text exactly if
it is decoded into that text and no form in it is too long. -/
theorem isText_iff_shortest (p : ConstantPool) (i : Index) (s : String) (b : Bytes) :
    (decode b = .ok s ↔ Spells (s.toList.flatMap units) b) ∧
    (encode s = b ↔ decode b = .ok s ∧ overlong b = false) ∧
    (p.isText i s = true ↔ p.text? i = some s ∧ (p.textBytes? i).any overlong = false) := by
  refine ⟨decode_eq_ok_iff, encode_eq_iff, ?_⟩
  constructor
  · intro h
    have htext := text?_of_isText h
    exact ⟨htext, (isText_iff_of_text? htext).mp h⟩
  · rintro ⟨htext, hshort⟩
    exact (isText_iff_of_text? htext).mpr hshort

end ConstantPool

/-- A class with an attribute whose name begins with an S of two bytes. -/
def longName : ClassFile where
  minor := 0
  major := 52
  pool := ⟨#[none, some (.utf8 (0xC1 :: 0x93 :: encode "ourceFile")), some (.classRef 3),
    some (.utf8 (encode "A"))]⟩
  access := 0x21
  thisClass := 2
  superClass := 0
  interfaces := []
  fields := []
  methods := []
  attributes := [⟨1, Bytes.be16 3⟩]
  name := "A"

/-- The name is decoded into the name of the label, and yet the class has no label. -/
theorem longName_overlooked :
    decode (0xC1 :: 0x93 :: encode "ourceFile") = .ok labelAttributeName ∧
      encode labelAttributeName ≠ 0xC1 :: 0x93 :: encode "ourceFile" ∧
      parse longName.toBytes = .ok longName ∧ longName.pool.text? 1 = some labelAttributeName ∧
      longName.pool.isText 1 labelAttributeName = false ∧ longName.labelIndex = .absent := by
  refine ⟨?_, ?_, ?_, ?_, ?_, ?_⟩
  · cbv
  · decide +kernel
  · cbv
  · cbv
  · decide +kernel
  · cbv

end SourceLabel.ClassFile
