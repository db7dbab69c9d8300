import SourceLabel.Proofs.ClassFile.Label

/-!
# Every well-formed class is read back

How a class has to look for it to be read back is said here slot by slot and list by list, with no reader
in mind: a slot of the pool is empty exactly if it is the first or stands after a wide constant, and every
number fits its field. The layout that the reader follows along the slots is the same one. So what is
written for a class is read as that class if and only if it looks like this.
-/
namespace SourceLabel.ClassFile

namespace ConstantPool

/-! ## Slots -/

/-- Does a slot hold a wide constant? -/
def wideSlot (slot : Option Constant) : Bool :=
  slot.any Constant.isWide

/-- Has slot `i` to stay empty? The first one has to if `blank` says so, any other one if the slot before
it holds a wide constant. -/
def blankAt (blank : Bool) (slots : List (Option Constant)) : Nat → Bool
  | 0 => blank
  | i + 1 => slots[i]?.any wideSlot

theorem blankAt_cons (blank : Bool) (slot : Option Constant) (slots : List (Option Constant)) (i : Nat) :
    blankAt blank (slot :: slots) (i + 1) = blankAt (wideSlot slot) slots i := by
  cases i with
  | zero => rfl
  | succ i => rfl

theorem blankAt_succ_iff {blank : Bool} {slots : List (Option Constant)} {i : Nat} :
    blankAt blank slots (i + 1) = true ↔ ∃ k, slots[i]? = some (some k) ∧ k.isWide = true := by
  simp only [blankAt, wideSlot, Option.any_eq_true]
  constructor
  · rintro ⟨slot, hslot, k, rfl, hk⟩
    exact ⟨k, hslot, hk⟩
  · rintro ⟨k, hslot, hk⟩
    exact ⟨some k, hslot, k, rfl, hk⟩

/-- Slots are empty where they have to be and nowhere else, no slot is missing at the end, and texts fit the
16 bits of their length. -/
def SlotsArranged (blank : Bool) (slots : List (Option Constant)) : Prop :=
  (∀ i < slots.length, slots[i]? = some none ↔ blankAt blank slots i = true) ∧
    blankAt blank slots slots.length = false ∧ ∀ k, some k ∈ slots → k.Valid

theorem slotsArranged_cons {blank : Bool} {slot : Option Constant} {slots : List (Option Constant)} :
    SlotsArranged blank (slot :: slots) ↔
      (slot = none ↔ blank = true) ∧ (∀ k, slot = some k → k.Valid) ∧ SlotsArranged (wideSlot slot) slots := by
  unfold SlotsArranged
  simp only [List.length_cons, Nat.forall_lt_succ_left, blankAt_cons, List.getElem?_cons_zero,
    List.getElem?_cons_succ, Option.some.injEq, List.mem_cons, or_imp, forall_and]
  have hfirst : blankAt blank (slot :: slots) 0 = blank := rfl
  have hsome : (∀ k, some k = slot → k.Valid) ↔ ∀ k, slot = some k → k.Valid :=
    forall_congr' fun k => by rw [eq_comm]
  rw [hfirst, hsome]
  constructor
  · rintro ⟨⟨h₀, hempty⟩, hend, hvalid, hrest⟩
    exact ⟨h₀, hvalid, hempty, hend, hrest⟩
  · rintro ⟨h₀, hvalid, hempty, hend, hrest⟩
    exact ⟨⟨h₀, hempty⟩, hend, hvalid, hrest⟩

theorem laid_iff_slotsArranged {blank : Bool} {slots : List (Option Constant)} :
    Laid blank slots ↔ SlotsArranged blank slots := by
  induction slots generalizing blank with
  | nil => cases blank <;> simp [Laid, SlotsArranged, blankAt]
  | cons slot slots ih =>
    rw [slotsArranged_cons, ← ih]
    cases slot with
    | none => cases blank <;> simp [Laid, wideSlot]
    | some k => cases blank <;> simp [Laid, wideSlot]

/-! ## Pools -/

/-- Every constant of the pool is where it belongs, and fits its fields. -/
structure Arranged (p : ConstantPool) : Prop where
  size_le : p.slots.size ≤ 65535
  first : p.slots[0]? = some none
  empty_iff : ∀ i, i + 1 < p.slots.size →
    (p.slots[i + 1]? = some none ↔ ∃ k, p.slots[i]? = some (some k) ∧ k.isWide = true)
  last : ∀ k, p.slots.back? = some (some k) → k.isWide = false
  texts : ∀ text, some (.utf8 text) ∈ p.slots → text.length ≤ 65535

theorem wellFormed_iff_laid {p : ConstantPool} :
    p.WellFormed ↔ p.slots.size < 65536 ∧ Laid true p.slots.toList := by
  constructor
  · rintro ⟨hsize, slots, hslots, hlaid⟩
    exact ⟨hsize, hslots ▸ hlaid⟩
  · rintro ⟨hsize, hlaid⟩
    refine ⟨hsize, ?_⟩
    cases hslots : p.slots.toList with
    | nil =>
      rw [hslots] at hlaid
      exact absurd hlaid id
    | cons slot slots =>
      rw [hslots] at hlaid
      cases slot with
      | none => exact ⟨slots, rfl, hlaid⟩
      | some k => exact absurd hlaid id

theorem blankAt_size {slots : Array (Option Constant)} (h : slots[0]? = some none) :
    blankAt true slots.toList slots.toList.length = false ↔
      ∀ k, slots.back? = some (some k) → k.isWide = false := by
  obtain ⟨hpos, -⟩ := Array.getElem?_eq_some_iff.mp h
  obtain ⟨n, hn⟩ := Nat.exists_eq_add_one.mpr hpos
  have hback : slots.back? = slots.toList[n]? := by
    rw [Array.back?, hn, Nat.add_sub_cancel, Array.getElem?_toList]
  rw [Array.length_toList, hn, ← Bool.not_eq_true, blankAt_succ_iff, hback]
  simp only [not_exists, not_and, Bool.not_eq_true]

theorem wellFormed_iff_arranged {p : ConstantPool} : p.WellFormed ↔ p.Arranged := by
  rw [wellFormed_iff_laid, laid_iff_slotsArranged]
  constructor
  · rintro ⟨hsize, hempty, hend, hvalid⟩
    have hpos : 0 < p.slots.toList.length := by
      refine Nat.pos_of_ne_zero fun h => ?_
      rw [h] at hend
      exact nomatch hend
    have hfirst : p.slots[0]? = some none := by
      rw [← Array.getElem?_toList]
      exact (hempty 0 hpos).mpr rfl
    refine ⟨Nat.le_of_lt_succ hsize, hfirst, fun i hi => ?_, (blankAt_size hfirst).mp hend, fun text ht => ?_⟩
    · have hslot := hempty (i + 1) hi
      rw [blankAt_succ_iff] at hslot
      simpa only [Array.getElem?_toList] using hslot
    · have hv : text.length < 65536 := hvalid _ (Array.mem_toList_iff.mpr ht)
      exact Nat.le_of_lt_succ hv
  · rintro ⟨hsize, hfirst, hempty, hlast, htexts⟩
    refine ⟨Nat.lt_succ_of_le hsize, fun i hi => ?_, (blankAt_size hfirst).mpr hlast, fun k hk => ?_⟩
    · cases i with
      | zero =>
        rw [Array.getElem?_toList, hfirst]
        exact iff_of_true rfl rfl
      | succ i =>
        rw [blankAt_succ_iff]
        simpa only [Array.getElem?_toList] using hempty i hi
    · cases k with
      | utf8 text => exact Nat.lt_succ_of_le (htexts text (Array.mem_toList_iff.mp hk))
      | _ => trivial

theorem WellFormed.length_le {p : ConstantPool} (hp : p.WellFormed) {i : Index} {text : Bytes}
    (h : p.textBytes? i = some text) : text.length ≤ 65535 :=
  (wellFormed_iff_arranged.mp hp).texts text (Array.mem_of_getElem? (getElem?_of_textBytes? h))

end ConstantPool

/-! ## Classes -/

/-- The class is well-formed, part by part: its constants are where they belong, no list is longer than its
count can say and no payload longer than its length can say, the class has the name that its pool gives it,
and the attribute for its label, if there is one, holds one index. -/
structure Arranged (c : ClassFile) : Prop where
  pool : c.pool.Arranged
  interfaces : c.interfaces.length < 65536
  fields : Member.AllValid c.fields
  methods : Member.AllValid c.methods
  attributes : Attribute.AllValid c.attributes
  name : c.pool.className? c.thisClass = some c.name
  label : ∀ a, c.labelAttribute? = some a → a.payload.length = 2

theorem wellFormed_iff_arranged {c : ClassFile} : c.WellFormed ↔ c.Arranged := by
  constructor
  · intro h
    exact ⟨ConstantPool.wellFormed_iff_arranged.mp h.pool, h.interfaces, h.fields, h.methods, h.attributes,
      h.name, h.label⟩
  · intro h
    exact ⟨⟨ConstantPool.wellFormed_iff_arranged.mpr h.pool, h.interfaces, h.fields, h.methods,
      h.attributes⟩, h.name, h.label⟩

/-- What is written for a class is read back as that class exactly if the class is well-formed. -/
theorem parse_toBytes_iff_arranged (c : ClassFile) : parse c.toBytes = .ok c ↔ c.Arranged := by
  rw [parse_eq_ok_iff, and_iff_left rfl, wellFormed_iff_arranged]

end SourceLabel.ClassFile
