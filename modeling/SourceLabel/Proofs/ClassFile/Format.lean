import SourceLabel.ClassFile.Format
import SourceLabel.Proofs.ClassFile.Pool

/-!
# Class files are read without loss

A class that was read is written with the bytes it was read from, and every class that is as reading leaves
them is read back from what is written for it. So the classes that can be read are known without looking at
bytes.
-/
namespace SourceLabel

namespace ClassFile

open Reader

theorem u16_reads (what : String) : Reads (u16 what) (fun _ => True) Bytes.be16 := by
  intro c x c'
  simp

/-! ## Attributes and members -/

namespace Attribute

/-- The length of the payload fits its field. -/
def Valid (a : Attribute) : Prop := a.payload.length < 4294967296

theorem reads : Reads Attribute.read Valid toBytes := by
  intro c a c'
  obtain ⟨name, payload⟩ := a
  simp only [Attribute.read, bind_eq_ok, u16_eq_ok, u32_eq_ok, bytes_eq_ok, pure_eq_ok, toBytes,
    Cursor.took_append, Valid, mk.injEq]
  constructor
  · rintro ⟨_, c₁, hn, n, c₂, hl, p, _, ⟨hp, ht⟩, ⟨rfl, rfl⟩, rfl⟩
    have hw : UInt32.ofNat p.length = n := by rw [hp, UInt32.ofNat_toNat]
    exact ⟨hp ▸ n.toNat_lt, c₁, hn, c₂, hw ▸ hl, ht⟩
  · rintro ⟨hlt, c₁, hn, c₂, hl, ht⟩
    exact ⟨name, c₁, hn, _, c₂, hl, payload, c', ⟨(UInt32.toNat_ofNat_of_lt' hlt).symm, ht⟩,
      ⟨rfl, rfl⟩, rfl⟩

/-- The number of attributes fits its field, and they are valid. -/
def AllValid (attributes : List Attribute) : Prop :=
  attributes.length < 65536 ∧ ∀ a ∈ attributes, a.Valid

theorem readList_reads : Reads readList AllValid listToBytes :=
  counted_reads reads "attribute count"

end Attribute

namespace Member

def Valid (m : Member) : Prop := Attribute.AllValid m.attributes

theorem reads (what : String) : Reads (Member.read what) Valid toBytes := by
  intro c m c'
  obtain ⟨access, name, descriptor, attributes⟩ := m
  simp only [Member.read, bind_eq_ok, u16_eq_ok, Attribute.readList_reads _ _ _, pure_eq_ok, toBytes,
    Cursor.took_append, Valid, mk.injEq]
  constructor
  · rintro ⟨_, c₁, ha, _, c₂, hn, _, c₃, hd, _, _, ⟨hv, ht⟩, ⟨rfl, rfl, rfl, rfl⟩, rfl⟩
    exact ⟨hv, c₁, ha, c₂, hn, c₃, hd, ht⟩
  · rintro ⟨hv, c₁, ha, c₂, hn, c₃, hd, ht⟩
    exact ⟨_, c₁, ha, _, c₂, hn, _, c₃, hd, _, _, ⟨hv, ht⟩, ⟨rfl, rfl, rfl, rfl⟩, rfl⟩

/-- The number of members fits its field, and they are valid. -/
def AllValid (members : List Member) : Prop :=
  members.length < 65536 ∧ ∀ m ∈ members, m.Valid

theorem readList_reads (what : String) : Reads (readList what) AllValid listToBytes :=
  counted_reads (reads what) what

end Member

/-! ## Classes -/

/-- Every number that is written for the class fits its field. -/
structure Shaped (c : ClassFile) : Prop where
  pool : c.pool.WellFormed
  interfaces : c.interfaces.length < 65536
  fields : Member.AllValid c.fields
  methods : Member.AllValid c.methods
  attributes : Attribute.AllValid c.attributes

/-- The class is as reading leaves it. -/
structure WellFormed (c : ClassFile) : Prop extends Shaped c where
  name : c.pool.className? c.thisClass = some c.name
  label : ∀ a, c.labelAttribute? = some a → a.payload.length = 2

theorem get_eq_ok {x c c' : Cursor} : (get : Reader Cursor) c = .ok (x, c') ↔ c = x ∧ c = c' := by
  have hg : (get : Reader Cursor) c = .ok (c, c) := rfl
  rw [hg, Except.ok.injEq, Prod.mk.injEq]

/-- The last step of reading: the attribute that holds the label must hold an index. -/
theorem checkLabel_eq_ok {x y : ClassFile} {start : Nat} {c c' : Cursor} :
    (match x.labelAttribute? with
      | none => pure x
      | some a =>
        if a.payload.length = 2 then pure x
        else failAt start (.labelLength a.payload.length) : Reader ClassFile) c = .ok (y, c') ↔
      (∀ a, x.labelAttribute? = some a → a.payload.length = 2) ∧ x = y ∧ c = c' := by
  cases h : x.labelAttribute? with
  | none => simp [pure_eq_ok]
  | some a =>
    by_cases hl : a.payload.length = 2
    · simp [hl, pure_eq_ok]
    · simp [hl, failAt_ne_ok]

/-- A class is read off the bytes that are written for it, whatever follows them, and then nothing must follow. -/
theorem read_of_took {c c' : Cursor} {x : ClassFile} (hw : x.WellFormed) (ht : c.Took x.toBytes c') :
    read c = if c'.rest = [] then .ok (x, c') else .error ⟨c'.offset, .trailing c'.rest.length⟩ := by
  simp only [toBytes, Cursor.took_append] at ht
  obtain ⟨c₁, hsign, c₂, hminor, c₃, hmajor, c₄, hpool, c₅, haccess, c₆, hthis, c₇, hsuper, c₈, hn, c₉, hinterfaces,
    c₁₀, hfields, c₁₁, hmethods, hattributes⟩ := ht
  have hl : x.interfaces.length = (UInt16.ofNat x.interfaces.length).toNat :=
    (UInt16.toNat_ofNat_of_lt' hw.interfaces).symm
  rw [read, bind_of_ok (u32_eq_ok.mpr hsign), if_neg (not_not_intro rfl)]
  refine (bind_of_ok (u16_eq_ok.mpr hminor)).trans ?_
  rw [bind_of_ok (u16_eq_ok.mpr hmajor), bind_of_ok ((ConstantPool.reads _ _ _).mpr ⟨hw.pool, hpool⟩),
    bind_of_ok (u16_eq_ok.mpr haccess), bind_of_ok (offset_eq_ok.mpr ⟨rfl, rfl⟩), bind_of_ok (u16_eq_ok.mpr hthis),
    bind_of_ok (u16_eq_ok.mpr hsuper), hw.name]
  dsimp only
  rw [bind_of_ok (u16_eq_ok.mpr hn),
    bind_of_ok ((times_reads (u16_reads _) _ _ _ _).mpr ⟨⟨hl, fun _ _ => trivial⟩, hinterfaces⟩),
    bind_of_ok ((Member.readList_reads _ _ _ _).mpr ⟨hw.fields, hfields⟩),
    bind_of_ok ((Member.readList_reads _ _ _ _).mpr ⟨hw.methods, hmethods⟩),
    bind_of_ok (offset_eq_ok.mpr ⟨rfl, rfl⟩),
    bind_of_ok ((Attribute.readList_reads _ _ _).mpr ⟨hw.attributes, hattributes⟩),
    bind_of_ok (get_eq_ok.mpr ⟨rfl, rfl⟩)]
  by_cases hr : c'.rest = []
  · rw [if_pos hr, if_neg (not_not_intro hr)]
    exact checkLabel_eq_ok.mpr ⟨hw.label, rfl, rfl⟩
  · rw [if_neg hr, if_pos hr]
    rfl

theorem read_eq_ok {c c' : Cursor} {x : ClassFile} :
    read c = .ok (x, c') ↔ x.WellFormed ∧ c.Took x.toBytes c' ∧ c'.rest = [] := by
  constructor
  · intro h
    obtain ⟨sign, c₁, hsign, h⟩ := bind_eq_ok.mp h
    split at h
    · obtain ⟨_, _, hf, -⟩ := bind_eq_ok.mp h
      exact absurd hf failAt_ne_ok
    next hm =>
    simp only [bind_eq_ok, u16_eq_ok, offset_eq_ok, ConstantPool.reads _ _ _] at h
    obtain ⟨_, c₂, hminor, _, c₃, hmajor, p, c₄, ⟨hpool, hpool'⟩, _, c₅, haccess, _, _, ⟨-, rfl⟩, t, c₆,
      hthis, _, c₇, hsuper, h⟩ := h
    cases hname : p.className? t with
    | none =>
      simp only [hname] at h
      exact absurd h failAt_ne_ok
    | some name =>
      simp only [hname, bind_eq_ok, u16_eq_ok, offset_eq_ok, get_eq_ok, times_reads (u16_reads _) _ _ _ _,
        Member.readList_reads _ _ _ _, Attribute.readList_reads _ _ _] at h
      obtain ⟨n, c₈, hn, is, c₉, ⟨⟨hl, -⟩, hinterfaces⟩, _, c₁₀, ⟨hfields, hfields'⟩, _, c₁₁,
        ⟨hmethods, hmethods'⟩, _, _, ⟨-, rfl⟩, _, c₁₂, ⟨hattributes, hattributes'⟩, _, _, ⟨rfl, rfl⟩, h⟩ := h
      split at h
      · obtain ⟨_, _, hf, -⟩ := bind_eq_ok.mp h
        exact absurd hf failAt_ne_ok
      next hrest =>
      obtain ⟨hlabel, rfl, rfl⟩ := checkLabel_eq_ok.mp h
      have hs : sign = magic := Decidable.not_not.mp hm
      have hw : UInt16.ofNat is.length = n := by rw [hl, UInt16.ofNat_toNat]
      refine ⟨⟨⟨hpool, hl ▸ n.toNat_lt, hfields, hmethods, hattributes⟩, hname, hlabel⟩, ?_,
        Decidable.not_not.mp hrest⟩
      simp only [toBytes, Cursor.took_append]
      exact ⟨c₁, hs ▸ u32_eq_ok.mp hsign, c₂, hminor, c₃, hmajor, c₄, hpool', c₅, haccess, c₆, hthis, c₇,
        hsuper, c₈, hw ▸ hn, c₉, hinterfaces, c₁₀, hfields', c₁₁, hmethods', hattributes'⟩
  · rintro ⟨hw, ht, hr⟩
    rw [read_of_took hw ht, if_pos hr]

/-- The classes that can be read are those that are as reading leaves them, and each is read from the bytes
that are written for it and from no others. -/
theorem parse_eq_ok_iff {b : Bytes} {c : ClassFile} :
    parse b = .ok c ↔ c.WellFormed ∧ b = c.toBytes := by
  unfold parse
  constructor
  · intro h
    rcases hr : read ⟨b, 0⟩ with e | ⟨x, c'⟩
    · rw [hr] at h
      exact nomatch h
    · rw [hr] at h
      obtain rfl : x = c := Except.ok.inj h
      obtain ⟨hw, ⟨ht, -⟩, hn⟩ := read_eq_ok.mp hr
      rw [hn, List.append_nil] at ht
      exact ⟨hw, ht⟩
  · rintro ⟨hw, rfl⟩
    have hr : read ⟨c.toBytes, 0⟩ = .ok (c, ⟨[], 0 + c.toBytes.length⟩) :=
      read_eq_ok.mpr ⟨hw, ⟨(List.append_nil _).symm, rfl⟩, rfl⟩
    rw [hr]
    rfl

/-- Reading loses nothing: what can be read is written again as the very bytes it was read from. Bytes that
are refused are not written for any class that is as reading leaves it. -/
theorem toBytes_of_parse (b : Bytes) :
    match parse b with
    | .ok c => c.WellFormed ∧ c.toBytes = b
    | .error _ => ∀ c : ClassFile, c.WellFormed → c.toBytes ≠ b := by
  cases h : parse b with
  | ok c =>
    obtain ⟨hw, hb⟩ := parse_eq_ok_iff.mp h
    exact ⟨hw, hb.symm⟩
  | error e =>
    intro c hw hb
    have hc : parse b = .ok c := parse_eq_ok_iff.mpr ⟨hw, hb.symm⟩
    rw [h] at hc
    exact nomatch hc

/-- A class with a wide constant, a text that is not well-formed, and a field with an attribute. -/
def wideBytes : Bytes :=
  [0xCA, 0xFE, 0xBA, 0xBE, 0, 0, 0, 52, 0, 7,
    5, 1, 2, 3, 4, 5, 6, 7, 8,  1, 0, 1, 65,  7, 0, 3,  1, 0, 2, 0xC0, 0xFF,  15, 6, 0, 9,
    0, 0x21, 0, 4, 0, 0, 0, 1, 0, 4,
    0, 1, 0, 2, 0, 3, 0, 5, 0, 1, 0, 5, 0, 0, 0, 3, 7, 8, 9,
    0, 0, 0, 0]

theorem toBytes_of_parse_wideBytes :
    ∃ c, parse wideBytes = .ok c ∧ c.WellFormed ∧ c.toBytes = wideBytes := by
  have h := toBytes_of_parse wideBytes
  cases hp : parse wideBytes with
  | ok c =>
    rw [hp] at h
    exact ⟨c, rfl, h⟩
  | error e =>
    have hn : (parse wideBytes).isOk = true := by decide +kernel
    rw [hp] at hn
    exact nomatch hn

theorem toBytes_injective {x y : ClassFile} (hx : x.Shaped) (hy : y.Shaped)
    (h : x.toBytes = y.toBytes) : x = { y with name := x.name } := by
  have ht : Cursor.Took ⟨x.toBytes, 0⟩ x.toBytes ⟨[], 0 + x.toBytes.length⟩ :=
    ⟨(List.append_nil _).symm, rfl⟩
  have ht' : Cursor.Took ⟨x.toBytes, 0⟩ y.toBytes ⟨[], 0 + x.toBytes.length⟩ := h ▸ ht
  simp only [toBytes, Cursor.took_append] at ht ht'
  obtain ⟨_, hsign, _, hminor, _, hmajor, _, hpool, _, haccess, _, hthis, _, hsuper, _, hn, _, hinterfaces,
    _, hfields, _, hmethods, hattributes⟩ := ht
  obtain ⟨_, hsign', _, hminor', _, hmajor', _, hpool', _, haccess', _, hthis', _, hsuper', _, hn', _,
    hinterfaces', _, hfields', _, hmethods', hattributes'⟩ := ht'
  obtain rfl := hsign.unique hsign'
  obtain ⟨eminor, rfl⟩ := (u16_reads "").unique trivial trivial hminor hminor'
  obtain ⟨emajor, rfl⟩ := (u16_reads "").unique trivial trivial hmajor hmajor'
  obtain ⟨epool, rfl⟩ := ConstantPool.reads.unique hx.pool hy.pool hpool hpool'
  obtain ⟨eaccess, rfl⟩ := (u16_reads "").unique trivial trivial haccess haccess'
  obtain ⟨ethis, rfl⟩ := (u16_reads "").unique trivial trivial hthis hthis'
  obtain ⟨esuper, rfl⟩ := (u16_reads "").unique trivial trivial hsuper hsuper'
  obtain ⟨en, rfl⟩ := (u16_reads "").unique trivial trivial hn hn'
  have hl : y.interfaces.length = x.interfaces.length := by
    have hc := congrArg UInt16.toNat en
    rw [UInt16.toNat_ofNat_of_lt' hx.interfaces, UInt16.toNat_ofNat_of_lt' hy.interfaces] at hc
    exact hc.symm
  obtain ⟨einterfaces, rfl⟩ := (times_reads (u16_reads "") x.interfaces.length).unique
    ⟨rfl, fun _ _ => trivial⟩ ⟨hl, fun _ _ => trivial⟩ hinterfaces hinterfaces'
  obtain ⟨efields, rfl⟩ := (Member.readList_reads "").unique hx.fields hy.fields hfields hfields'
  obtain ⟨emethods, rfl⟩ := (Member.readList_reads "").unique hx.methods hy.methods hmethods hmethods'
  obtain ⟨eattributes, -⟩ :=
    Attribute.readList_reads.unique hx.attributes hy.attributes hattributes hattributes'
  obtain ⟨_, _, _, _, _, _, _, _, _, _, name⟩ := x
  simp only at eminor emajor epool eaccess ethis esuper einterfaces efields emethods eattributes
  subst eminor emajor epool eaccess ethis esuper einterfaces efields emethods eattributes
  rfl

end ClassFile
end SourceLabel
