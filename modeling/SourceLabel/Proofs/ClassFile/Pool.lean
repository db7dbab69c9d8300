import SourceLabel.ClassFile.ConstantPool
import SourceLabel.Proofs.ClassFile.Reading

/-!
# Constant pools as they are read

A pool that was read has its constants where they belong: slot 0 is empty, so is the slot after each wide
constant, and no other. Every text fits the 16 bits of its length. Exactly these pools are read from what
is written for them.
-/
namespace SourceLabel.ClassFile

open Reader

/-! ## Constants -/

namespace Constant

/-- The length of a text fits its field. -/
def Valid : Constant → Prop
  | .utf8 text => text.length < 65536
  | _ => True

theorem readOne_eq_ok {make : Index → Constant} {c c' : Cursor} {k : Constant} :
    readOne make c = .ok (k, c') ↔ ∃ a, k = make a ∧ c.Took (Bytes.be16 a) c' := by
  simp only [readOne, bind_eq_ok, u16_eq_ok, pure_eq_ok]
  constructor
  · rintro ⟨a, c₁, ht, rfl, rfl⟩
    exact ⟨a, rfl, ht⟩
  · rintro ⟨a, rfl, ht⟩
    exact ⟨a, c', ht, rfl, rfl⟩

theorem readTwo_eq_ok {make : Index → Index → Constant} {c c' : Cursor} {k : Constant} :
    readTwo make c = .ok (k, c') ↔
      ∃ a b, k = make a b ∧ c.Took (Bytes.be16 a ++ Bytes.be16 b) c' := by
  simp only [readTwo, bind_eq_ok, u16_eq_ok, pure_eq_ok, Cursor.took_append]
  constructor
  · rintro ⟨a, c₁, ha, b, c₂, hb, rfl, rfl⟩
    exact ⟨a, b, rfl, c₁, ha, hb⟩
  · rintro ⟨a, b, rfl, c₁, ha, hb⟩
    exact ⟨a, c₁, ha, b, c', hb, rfl, rfl⟩

theorem readText_eq_ok {c c' : Cursor} {k : Constant} :
    (do let length ← u16 "utf8 length"
        let text ← bytes "utf8 constant" length.toNat
        return Constant.utf8 text) c = .ok (k, c') ↔
      ∃ text : Bytes, k = .utf8 text ∧ text.length < 65536 ∧
        c.Took (Bytes.be16 (UInt16.ofNat text.length) ++ text) c' := by
  simp only [bind_eq_ok, u16_eq_ok, bytes_eq_ok, pure_eq_ok, Cursor.took_append]
  constructor
  · rintro ⟨n, c₁, hn, text, c₂, ⟨hl, ht⟩, rfl, rfl⟩
    have hw : UInt16.ofNat text.length = n := by rw [hl, UInt16.ofNat_toNat]
    exact ⟨text, rfl, hl ▸ n.toNat_lt, c₁, hw ▸ hn, ht⟩
  · rintro ⟨text, rfl, hlt, c₁, hn, ht⟩
    exact ⟨_, c₁, hn, text, c', ⟨(UInt16.toNat_ofNat_of_lt' hlt).symm, ht⟩, rfl, rfl⟩

theorem readBody_eq_ok {start : Nat} {t : UInt8} {c c' : Cursor} {k : Constant} :
    readBody start t c = .ok (k, c') ↔ k.tag = t ∧ k.Valid ∧ c.Took k.body c' := by
  constructor
  · have htag {n : Nat} (hn : n < 256) (ht : t.toNat = n) : UInt8.ofNat n = t :=
      Bytes.ofNat_eq (by omega)
    fun_cases readBody start t
    case case1 ht =>
      intro h
      obtain ⟨text, rfl, hlt, hb⟩ := readText_eq_ok.mp h
      exact ⟨htag (by decide) ht, hlt, hb⟩
    case case2 ht | case3 ht =>
      intro h
      simp only [bind_eq_ok, u32_eq_ok, pure_eq_ok] at h
      obtain ⟨bits, c₁, hb, rfl, rfl⟩ := h
      exact ⟨htag (by decide) ht, trivial, hb⟩
    case case4 ht | case5 ht =>
      intro h
      simp only [bind_eq_ok, u64_eq_ok, pure_eq_ok] at h
      obtain ⟨bits, c₁, hb, rfl, rfl⟩ := h
      exact ⟨htag (by decide) ht, trivial, hb⟩
    case case6 ht | case7 ht | case13 ht | case16 ht | case17 ht =>
      intro h
      obtain ⟨a, rfl, hb⟩ := readOne_eq_ok.mp h
      exact ⟨htag (by decide) ht, trivial, hb⟩
    case case8 ht | case9 ht | case10 ht | case11 ht | case14 ht | case15 ht =>
      intro h
      obtain ⟨a, b, rfl, hb⟩ := readTwo_eq_ok.mp h
      exact ⟨htag (by decide) ht, trivial, hb⟩
    case case12 ht =>
      intro h
      obtain ⟨kind, c₁, hk, ha⟩ := bind_eq_ok.mp h
      obtain ⟨a, rfl, hb⟩ := readOne_eq_ok.mp ha
      exact ⟨htag (by decide) ht, trivial, Cursor.took_append.mpr ⟨c₁, u8_eq_ok.mp hk, hb⟩⟩
    case case18 => exact fun h => absurd h failAt_ne_ok
  · rintro ⟨rfl, hv, h⟩
    cases k with
    | utf8 text => exact readText_eq_ok.mpr ⟨text, rfl, hv, h⟩
    | integer bits | float bits =>
      exact bind_eq_ok.mpr ⟨bits, c', u32_eq_ok.mpr h, pure_eq_ok.mpr ⟨rfl, rfl⟩⟩
    | long bits | double bits =>
      exact bind_eq_ok.mpr ⟨bits, c', u64_eq_ok.mpr h, pure_eq_ok.mpr ⟨rfl, rfl⟩⟩
    | classRef a | string a | methodType a | module a | package a =>
      exact readOne_eq_ok.mpr ⟨a, rfl, h⟩
    | fieldRef a b | methodRef a b | interfaceMethodRef a b | nameAndType a b | dynamic a b
    | invokeDynamic a b => exact readTwo_eq_ok.mpr ⟨a, b, rfl, h⟩
    | methodHandle kind a =>
      obtain ⟨c₁, hk, h⟩ := (Cursor.took_append (a := [kind])).mp h
      exact bind_eq_ok.mpr ⟨kind, c₁, u8_eq_ok.mpr hk, readOne_eq_ok.mpr ⟨a, rfl, h⟩⟩

theorem reads : Reads Constant.read Valid toBytes := by
  intro c k c'
  have ht : c.Took k.toBytes c' ↔ ∃ c₁, c.Took [k.tag] c₁ ∧ c₁.Took k.body c' :=
    Cursor.took_append (a := [k.tag])
  simp only [Constant.read, bind_eq_ok, offset_eq_ok, u8_eq_ok, readBody_eq_ok, ht]
  constructor
  · rintro ⟨start, c₀, ⟨-, rfl⟩, t, c₁, h, rfl, hv, hb⟩
    exact ⟨hv, c₁, h, hb⟩
  · intro ⟨hv, c₁, h, hb⟩
    exact ⟨c.offset, c, ⟨rfl, rfl⟩, k.tag, c₁, h, rfl, hv, hb⟩

end Constant

/-! ## Slots -/

namespace ConstantPool

/-- The slots are as reading leaves them: the first is empty if `blank` says so, and then each slot holds a
constant that is valid, unless the constant before it is wide. -/
def Laid : (blank : Bool) → List (Option Constant) → Prop
  | false, [] => True
  | true, none :: slots => Laid false slots
  | false, some k :: slots => k.Valid ∧ Laid k.isWide slots
  | _, _ => False

/-- The slot after a wide constant exists. -/
theorem laid_wide {k : Constant} {more : List (Option Constant)} {left : Nat} (h : Laid k.isWide more)
    (hl : more.length = left) : k.isWide = false ∨ 0 < left := by
  cases hwide : k.isWide with
  | false => exact .inl rfl
  | true =>
    rw [hwide] at h
    cases more with
    | nil => exact absurd h id
    | cons slot more => exact .inr (hl ▸ Nat.succ_pos _)

def slotBytes (slots : List (Option Constant)) : Bytes :=
  (slots.filterMap id).flatMap Constant.toBytes

theorem slotBytes_none (slots : List (Option Constant)) : slotBytes (none :: slots) = slotBytes slots := rfl

theorem slotBytes_some (k : Constant) (slots : List (Option Constant)) :
    slotBytes (some k :: slots) = k.toBytes ++ slotBytes slots := rfl

theorem readSlots_succ (left : Nat) (slots : Array (Option Constant)) :
    readSlots (left + 1) false slots = (do
      let start ← offset
      let k ← Constant.read
      if k.isWide && left == 0 then failAt start .wideInLastSlot
      else readSlots left k.isWide (slots.push (some k))) := by
  funext c
  show _ = (Constant.read c).bind fun p => (if p.1.isWide && left == 0 then failAt c.offset .wideInLastSlot
    else readSlots left p.1.isWide (slots.push (some p.1)) : Reader (Array (Option Constant))) p.2
  dsimp only [readSlots]
  cases Constant.read c with
  | error e => rfl
  | ok p =>
    obtain ⟨k, c'⟩ := p
    dsimp only [Except.bind]
    split <;> rfl

theorem readSlots_eq_ok {left : Nat} {blank : Bool} {slots result : Array (Option Constant)}
    {c c' : Cursor} (hb : blank = false ∨ 0 < left) :
    readSlots left blank slots c = .ok (result, c') ↔
      ∃ more, result.toList = slots.toList ++ more ∧ more.length = left ∧ Laid blank more ∧
        c.Took (slotBytes more) c' := by
  induction left generalizing blank slots c with
  | zero =>
    obtain rfl : blank = false := hb.resolve_right (Nat.lt_irrefl 0)
    simp only [readSlots, Except.ok.injEq, Prod.mk.injEq, List.length_eq_zero_iff]
    constructor
    · rintro ⟨rfl, rfl⟩
      exact ⟨[], (List.append_nil _).symm, rfl, trivial, Cursor.took_nil.mpr rfl⟩
    · rintro ⟨more, hr, rfl, -, ht⟩
      rw [List.append_nil] at hr
      exact ⟨(Array.toList_inj.mp hr).symm, Cursor.took_nil.mp ht⟩
  | succ left ih =>
    cases blank with
    | true =>
      rw [readSlots, ih (.inl rfl)]
      constructor
      · intro ⟨more, hr, hl, hm, ht⟩
        exact ⟨none :: more, by simpa using hr, congrArg Nat.succ hl, hm, slotBytes_none more ▸ ht⟩
      · intro ⟨more, hr, hl, hm, ht⟩
        obtain ⟨slot, more, rfl⟩ := List.exists_cons_of_length_eq_add_one hl
        cases slot with
        | none => exact ⟨more, by simpa using hr, Nat.succ.inj hl, hm, slotBytes_none more ▸ ht⟩
        | some k => exact absurd hm id
    | false =>
      simp only [readSlots]
      constructor
      · intro h
        split at h
        · exact nomatch h
        · next k c₁ hk =>
          obtain ⟨hv, ht⟩ := (Constant.reads _ _ _).mp hk
          split at h
          · exact nomatch h
          · next hw =>
            have hpos : k.isWide = false ∨ 0 < left := by
              simp only [Bool.and_eq_true, beq_iff_eq, not_and] at hw
              cases hwide : k.isWide with
              | false => exact .inl rfl
              | true => exact .inr (Nat.pos_of_ne_zero (hw hwide))
            obtain ⟨more, hr, hl, hm, ht'⟩ := (ih hpos).mp h
            refine ⟨some k :: more, by simpa using hr, congrArg Nat.succ hl, ⟨hv, hm⟩, ?_⟩
            rw [slotBytes_some]
            exact Cursor.took_append.mpr ⟨c₁, ht, ht'⟩
      · intro ⟨more, hr, hl, hm, ht⟩
        obtain ⟨slot, more, rfl⟩ := List.exists_cons_of_length_eq_add_one hl
        cases slot with
        | none => exact absurd hm id
        | some k =>
          obtain ⟨hv, hm⟩ := hm
          rw [slotBytes_some] at ht
          obtain ⟨c₁, hk, ht⟩ := Cursor.took_append.mp ht
          have hl : more.length = left := Nat.succ.inj hl
          have hpos : k.isWide = false ∨ 0 < left := laid_wide hm hl
          have hw : ¬ (k.isWide && left == 0) = true := by
            simp only [Bool.and_eq_true, beq_iff_eq]
            intro ⟨hwide, hz⟩
            rcases hpos with hf | hp
            · exact absurd (hwide.symm.trans hf) (by decide)
            · omega
          simp only [(Constant.reads _ _ _).mpr ⟨hv, hk⟩, hw]
          exact (ih hpos).mpr ⟨more, by simpa using hr, hl, hm, ht⟩

/-! ## Whole pools -/

/-- The pool is as reading leaves it. -/
structure WellFormed (p : ConstantPool) : Prop where
  size_lt : p.slots.size < 65536
  laid : ∃ slots, p.slots.toList = none :: slots ∧ Laid false slots

theorem reads : Reads ConstantPool.read WellFormed toBytes := by
  intro c p c'
  obtain ⟨slots⟩ := p
  simp only [ConstantPool.read, bind_eq_ok, u16_eq_ok, toBytes, Cursor.took_append]
  constructor
  · rintro ⟨n, c₁, hn, h⟩
    split at h
    · obtain ⟨_, _, -, h⟩ := bind_eq_ok.mp h
      exact absurd h failAt_ne_ok
    · next hz =>
      obtain ⟨result, c₂, hs, hp⟩ := bind_eq_ok.mp h
      obtain ⟨he, rfl⟩ := pure_eq_ok.mp hp
      obtain rfl : result = slots := mk.inj he
      obtain ⟨more, hr, hl, hm, ht⟩ := (readSlots_eq_ok (.inl rfl)).mp hs
      have hpos : 0 < n.toNat := Nat.pos_of_ne_zero fun h => hz (UInt16.toNat_inj.mp h)
      have hs : result.size = n.toNat := by
        rw [← Array.length_toList, hr]
        simp only [List.length_append, List.length_singleton, hl]
        omega
      have hw : count ⟨result⟩ = n := by rw [count, hs, UInt16.ofNat_toNat]
      refine ⟨⟨hs ▸ n.toNat_lt, more, hr, hm⟩, c₁, ?_, ?_⟩
      · rw [hw]
        exact hn
      · rw [constants, hr]
        exact ht
  · rintro ⟨⟨hlt, more, hr, hm⟩, c₁, hn, ht⟩
    have hs : slots.size = more.length + 1 := by rw [← Array.length_toList, hr]; rfl
    have hz : UInt16.ofNat slots.size ≠ 0 := by
      intro h
      have := congrArg UInt16.toNat h
      rw [UInt16.toNat_ofNat_of_lt' hlt, hs] at this
      exact absurd this (Nat.succ_ne_zero _)
    refine ⟨_, c₁, hn, ?_⟩
    have hz' : ¬ (count ⟨slots⟩ = 0) := hz
    rw [if_neg hz']
    refine bind_eq_ok.mpr ⟨slots, c', (readSlots_eq_ok (.inl rfl)).mpr ⟨more, hr, ?_, hm, ?_⟩,
      pure_eq_ok.mpr ⟨rfl, rfl⟩⟩
    · rw [count, UInt16.toNat_ofNat_of_lt' hlt, hs, Nat.add_sub_cancel]
    · rw [constants, hr] at ht
      exact ht

end ConstantPool
end SourceLabel.ClassFile
