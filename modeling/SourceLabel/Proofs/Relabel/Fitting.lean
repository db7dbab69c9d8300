import SourceLabel.Proofs.ClassFile.Layout
import SourceLabel.Proofs.ClassFile.Relabelled
import SourceLabel.Proofs.Policy.Table
import SourceLabel.Proofs.Relabel.Patching
import SourceLabel.Proofs.Text.Length

/-!
# New labels that do not fit

The length of a text in a class file is a number of 16 bits. The new label of a class is made of its name, which
is such a text, but it may be longer: the extension of the old label is put behind the name, and the name may
have been decoded with replacements that take more bytes than what they stand for. A class whose new label is too
long is refused, although it was read.

No other class that was read is refused. An old label can be kept, since it was read from a text that fits; and a
short name is part of the name, so it is written in no more bytes.
-/
namespace SourceLabel

open Text.Modified

/-! ## How long a new label gets -/

theorem shortName_sublist (className : String) : (shortName className).toList.Sublist className.toList := by
  obtain ⟨package, hsplit, -⟩ := (isShortName_shortName className).split
  rw [hsplit]
  exact List.sublist_append_right _ _

theorem outerName_sublist (short : String) : (outerName short).toList.Sublist short.toList := by
  have houter := isOuterName_outerName short
  generalize outerName short = outer at houter
  cases houter with
  | whole => exact .refl _
  | cut _ _ hshort =>
    rw [hshort, String.toList_append, String.toList_append, List.append_assoc]
    exact List.sublist_append_left _ _

/-- A label that is not kept takes no more bytes than the name of the class and a primary suffix. -/
theorem Policy.Dotted.length_encode_relabel_le {p : Policy} (h : p.Dotted) {k : Nat}
    (hk : ∀ suffix ∈ p.primary, (encode suffix).length ≤ k) (className label : String) :
    p.relabel className label = label ∨
      (encode (p.relabel className label)).length ≤ (encode className).length + k := by
  have hshort := length_encode_le_of_sublist (shortName_sublist className)
  rcases p.relabel_cases className label with ⟨suffix, hs, hl⟩ | hbare | hkept
  · have houter := length_encode_le_of_sublist (outerName_sublist (shortName className))
    right
    rw [h.relabel_primary hs hl, encode_append, List.length_append]
    exact Nat.add_le_add (houter.trans hshort) (hk suffix hs)
  · right
    rw [hbare]
    exact hshort.trans (Nat.le_add_right _ _)
  · exact .inl hkept

namespace ClassFile

variable {c : ClassFile} {old : String}

/-- The label of a class that was read is written in no more bytes than a text may have. -/
theorem WellFormed.length_encode_le (hc : c.WellFormed) (hl : c.label? = some old) :
    (encode old).length ≤ 65535 := by
  obtain ⟨_, _, _, -, -, -, htext⟩ := label?_eq_some hl
  obtain ⟨b, hb, hdecode⟩ := ConstantPool.text?_eq_some_iff.mp htext
  exact (length_encode_le_of_decode hdecode).trans (hc.pool.length_le hb)

theorem setLabel_of_lt (hl : c.label? = some old) {s : String} (hs : 65535 < (encode s).length) :
    c.setLabel s = .error ⟨0, .tooLong (encode s).length⟩ := by
  obtain ⟨_, i, _, -, -, hi, -⟩ := label?_eq_some hl
  unfold setLabel
  rw [hi]
  dsimp only
  rw [ConstantPool.setText_of_lt hs]

theorem setLabel_of_le (hl : c.label? = some old) {s : String} (hs : (encode s).length ≤ 65535) :
    ∃ c', c.setLabel s = .ok c' := by
  obtain ⟨_, i, _, -, -, hi, htext⟩ := label?_eq_some hl
  obtain ⟨b, hb⟩ := textBytes?_of_text? htext
  unfold setLabel
  rw [hi]
  dsimp only
  rw [ConstantPool.setText_eq_ok hb hs]
  exact ⟨_, rfl⟩

/-- The bytes that hold the name of the class. -/
def nameBytes? (c : ClassFile) : Option Bytes :=
  (c.pool.nameIndex? c.thisClass).bind c.pool.textBytes?

theorem WellFormed.nameBytes? (hc : c.WellFormed) : ∃ b, c.nameBytes? = some b ∧ c.name = decodeLossy b := by
  have hname := hc.name
  rw [ConstantPool.className?_eq] at hname
  obtain ⟨i, hi, hi'⟩ := Option.bind_eq_some_iff.mp hname
  obtain ⟨b, hb, hdecode⟩ := Option.map_eq_some_iff.mp hi'
  exact ⟨b, Option.bind_eq_some_iff.mpr ⟨i, hi, hb⟩, hdecode.symm⟩

end ClassFile

/-! ## Classes whose new label fits -/

namespace Relabel

variable {policy : Policy} {path : NestedPath} {c : ClassFile}

/-- If the class has a label, the one that the policy gives it is not too long. -/
def Writable (policy : Policy) (c : ClassFile) : Prop :=
  ∀ old, c.label? = some old → (encode (policy.relabel c.name old)).length ≤ 65535

theorem relabel_of_lt (hc : c.WellFormed) {old : String} (hl : c.label? = some old)
    (hlong : 65535 < (encode (policy.relabel c.name old)).length) :
    relabel policy path c =
      .error (.malformedClass path.toString ⟨0, .tooLong (encode (policy.relabel c.name old)).length⟩) := by
  have hne : ¬ policy.relabel c.name old = old := by
    intro hkept
    rw [hkept] at hlong
    exact Nat.not_lt.mpr (hc.length_encode_le hl) hlong
  unfold relabel
  rw [hl]
  dsimp only
  rw [if_neg hne, ClassFile.setLabel_of_lt hl hlong]

theorem relabel_eq_ok_iff (hc : c.WellFormed) : (∃ p, relabel policy path c = .ok p) ↔ Writable policy c := by
  have hr := relabels policy path c
  constructor
  · rintro ⟨p, hp⟩ old hl
    rw [hp] at hr
    cases hr with
    | unlabelled _ hnone => exact nomatch hl.symm.trans hnone
    | kept hl' hkept =>
      obtain rfl := Option.some.inj (hl'.symm.trans hl)
      rw [hkept]
      exact hc.length_encode_le hl
    | changed hl' _ hset =>
      obtain rfl := Option.some.inj (hl'.symm.trans hl)
      exact ClassFile.length_le_of_setLabel hset
  · intro hfits
    generalize relabel policy path c = r at hr
    cases hr with
    | unlabelled | kept | changed => exact ⟨_, rfl⟩
    | refused hl _ hset =>
      obtain ⟨c', hset'⟩ := ClassFile.setLabel_of_le hl (hfits _ hl)
      exact nomatch hset.symm.trans hset'

/-- The usual suffix takes five bytes. What is left for the name counts every byte of it that is replaced three
times. -/
theorem writable_of_name_le (hc : c.WellFormed) {b : Bytes} (hb : c.name = decodeLossy b)
    (hle : b.length + 2 * strayBytes b ≤ 65530) : Writable {} c := by
  intro old hl
  have hsuffix : ∀ suffix ∈ ({} : Policy).primary, (encode suffix).length ≤ 5 := by decide +kernel
  rcases Policy.dotted_default.length_encode_relabel_le hsuffix c.name old with hkept | hnew
  · rw [hkept]
    exact hc.length_encode_le hl
  · have hname := length_encode_decodeLossy_le b
    rw [← hb] at hname
    omega

/-- A class that was read gets its label, and no failure, exactly if its new label is not too long. A class that
was not read is a malformed class, for the reason that it was not read for; no other class is one, unless its new
label is too long. With the usual policy this is not so for a class whose name takes at most 65530 bytes, where a
byte of no unit counts three times. -/
theorem patch_eq_ok_iff (policy : Policy) (l : Walk.Leaf) :
    ((∃ p, patch policy l = .ok p) ↔
      ∃ data c, l.contents = .ok data ∧ ClassFile.parse data = .ok c ∧ Writable policy c) ∧
    (∀ data cause, l.contents = .ok data → ClassFile.parse data = .error cause →
      patch policy l = .error (.malformedClass l.path.toString cause)) ∧
    (∀ path cause, patch policy l = .error (.malformedClass path cause) →
      path = l.path.toString ∧ ∃ data, l.contents = .ok data ∧
        (ClassFile.parse data = .error cause ∨ ∃ c, ClassFile.parse data = .ok c ∧ ¬ Writable policy c)) ∧
    (∀ data c, ClassFile.parse data = .ok c →
      ∃ b, c.nameBytes? = some b ∧ c.name = decodeLossy b ∧
        (b.length + 2 * strayBytes b ≤ 65530 → Writable {} c)) := by
  have wellFormed {data : Bytes} {c : ClassFile} (h : ClassFile.parse data = .ok c) : c.WellFormed :=
    (ClassFile.parse_eq_ok_iff.mp h).1
  refine ⟨?_, fun data cause h hparse => patch_of_parse_error h hparse policy, ?_, ?_⟩
  · constructor
    · rintro ⟨p, hp⟩
      obtain ⟨data, c, hdata, hparse, hrelabel⟩ := parse_of_patch hp
      exact ⟨data, c, hdata, hparse, (relabel_eq_ok_iff (wellFormed hparse)).mp ⟨p, hrelabel⟩⟩
    · rintro ⟨data, c, hdata, hparse, hfits⟩
      rw [patch_of_parse hdata hparse]
      exact (relabel_eq_ok_iff (wellFormed hparse)).mpr hfits
  · intro path cause hfail
    obtain ⟨hpath, data, hdata, hparse | ⟨c, hparse, hrelabel⟩⟩ := malformed_of_patch hfail
    · exact ⟨hpath, data, hdata, .inl hparse⟩
    · refine ⟨hpath, data, hdata, .inr ⟨c, hparse, fun hfits => ?_⟩⟩
      obtain ⟨p, hp⟩ := (relabel_eq_ok_iff (wellFormed hparse)).mpr hfits
      exact nomatch hrelabel.symm.trans hp
  · intro data c hparse
    obtain ⟨b, hbytes, hb⟩ := (wellFormed hparse).nameBytes?
    exact ⟨b, hbytes, hb, writable_of_name_le (wellFormed hparse) hb⟩

/-! ## A name that fills its text -/

/-- A class whose name is the letter A so many times. -/
def named (n : Nat) : ClassFile where
  minor := 0
  major := 52
  pool := ⟨#[none, some (.utf8 (List.replicate n 0x41)), some (.classRef 1),
    some (.utf8 (encode ClassFile.labelAttributeName)), some (.utf8 (encode "X.java"))]⟩
  access := 0x21
  thisClass := 2
  superClass := 0
  interfaces := []
  fields := []
  methods := []
  attributes := [⟨3, Bytes.be16 4⟩]
  name := String.ofList (List.replicate n 'A')

theorem encode_named (n : Nat) : encode (named n).name = List.replicate n 0x41 := by
  have hascii : ∀ a ∈ List.replicate n (0x41 : UInt8), 0 < a.toNat ∧ a.toNat < 0x80 := by
    intro a ha
    rw [List.eq_of_mem_replicate ha]
    decide
  have hencode := encode_ascii hascii
  rwa [List.map_replicate] at hencode

theorem label?_named (n : Nat) : (named n).label? = some "X.java" := by
  cbv

theorem relabel_named (n : Nat) : ({} : Policy).relabel (named n).name "X.java" = (named n).name ++ ".java" := by
  have hname : (named n).name.toList = List.replicate n 'A' := String.toList_ofList
  have hseparator : ∀ c ∈ (named n).name.toList, isPackageSeparator c = false := by
    intro c hc
    rw [hname] at hc
    rw [List.eq_of_mem_replicate hc]
    decide
  have hdollar : '$' ∉ (named n).name.toList := by
    intro hc
    rw [hname] at hc
    exact absurd (List.eq_of_mem_replicate hc) (by decide)
  have hshort : shortName (named n).name = (named n).name := by
    rw [shortName, Text.afterLast_of_forall hseparator, String.ofList_toList]
  have houter : outerName (named n).name = (named n).name := outerName_of_notMem hdollar
  rw [Policy.dotted_default.relabel_primary (List.mem_singleton_self ".java") (by decide), hshort, houter]

theorem wellFormed_named {n : Nat} (hn : n ≤ 65535) : (named n).WellFormed := by
  have hname : (named n).pool.className? 2 = some (named n).name := by
    change some (decodeLossy (List.replicate n 0x41)) = _
    rw [← encode_named, decodeLossy_of_decode (decode_encode _)]
  have htext {n : Nat} (hn : n ≤ 65535) {b : Bytes} (hb : b.length = n) : b.length < 65536 :=
    hb ▸ Nat.lt_succ_of_le hn
  have hpool : (named n).pool.WellFormed :=
    ⟨by simp [named], _, rfl, htext hn List.length_replicate, trivial,
      htext (n := 10) (by decide) (by decide +kernel), htext (n := 6) (by decide) (by decide +kernel), trivial⟩
  have hlabel : ∀ a, (named n).labelAttribute? = some a → a.payload.length = 2 := by
    intro a ha
    obtain rfl := List.mem_singleton.mp (List.mem_of_find?_eq_some ha)
    rfl
  have hattributes : ClassFile.Attribute.AllValid (named n).attributes := by
    refine ⟨by simp [named], fun a ha => ?_⟩
    obtain rfl := List.mem_singleton.mp ha
    exact (by decide : 2 < 4294967296)
  exact ⟨⟨hpool, by simp [named], ⟨by simp [named], nofun⟩, ⟨by simp [named], nofun⟩, hattributes⟩, hname, hlabel⟩

theorem length_relabel_named (n : Nat) :
    (encode (({} : Policy).relabel (named n).name "X.java")).length = n + 5 := by
  have hsuffix : (encode ".java").length = 5 := by decide +kernel
  simp [relabel_named, encode_named, hsuffix]

/-- A class is read whose name takes 65531 bytes, and yet it is a malformed class. -/
theorem named_refused :
    ClassFile.parse (named 65531).toBytes = .ok (named 65531) ∧
      patch {} ⟨⟨"A.class", []⟩, [], .plain (named 65531).toBytes⟩ =
        .error (.malformedClass "A.class" ⟨0, .tooLong 65536⟩) := by
  have hc : (named 65531).WellFormed := wellFormed_named (by decide)
  have hparse : ClassFile.parse (named 65531).toBytes = .ok (named 65531) :=
    ClassFile.parse_eq_ok_iff.mpr ⟨hc, rfl⟩
  have hlength := length_relabel_named 65531
  have hlong : 65535 < (encode (({} : Policy).relabel (named 65531).name "X.java")).length := by
    rw [hlength]
    decide
  refine ⟨hparse, ?_⟩
  rw [patch_of_parse rfl hparse, relabel_of_lt hc (label?_named 65531) hlong, hlength]
  rfl

end Relabel
end SourceLabel
