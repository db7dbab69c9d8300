import Mathlib
import SourceLabel.Checksum

/-!
# Damage that a checksum shows

Dividing out a bit is additive and can be undone, so different registers stay different whatever is pushed into
both of them. Up to four bytes fit into the register side by side. Pushing them one after the other divides as many
bits out of the register as if all of them had been added at once, so different bytes leave different registers.
Data that differ within four bytes in a row therefore have different checksums, however much they have in common
before and behind these bytes.
-/
namespace SourceLabel

namespace Checksum

variable {a b r : UInt32}

/-! ## Dividing out bits -/

theorem and_one_eq_one_iff : r &&& 1 = 1 ↔ r.toNat % 2 = 1 := by
  rw [← UInt32.toNat_inj, UInt32.toNat_and, UInt32.toNat_one, Nat.and_one_is_mod]

theorem toNat_shiftRight_one (r : UInt32) : (r >>> 1).toNat = r.toNat / 2 := by
  rw [UInt32.toNat_shiftRight]
  exact Nat.shiftRight_eq_div_pow r.toNat 1

theorem shift_of_even (h : r.toNat % 2 = 0) : shift r = r >>> 1 := by
  rw [shift, if_neg]
  rw [and_one_eq_one_iff]
  omega

theorem shift_of_odd (h : r.toNat % 2 = 1) : shift r = (r >>> 1) ^^^ 0xEDB88320 := by
  rw [shift, if_pos (and_one_eq_one_iff.mpr h)]

theorem shift_xor (a b : UInt32) : shift (a ^^^ b) = shift a ^^^ shift b := by
  have hparity : (a ^^^ b).toNat % 2 = 1 ↔ ¬ (a.toNat % 2 = 1 ↔ b.toNat % 2 = 1) := by
    rw [UInt32.toNat_xor, Nat.xor_mod_two_eq_one]
  rcases Nat.mod_two_eq_zero_or_one a.toNat with ha | ha <;> rcases Nat.mod_two_eq_zero_or_one b.toNat with hb | hb
  · rw [shift_of_even ha, shift_of_even hb, shift_of_even (by omega), UInt32.shiftRight_xor]
  · rw [shift_of_even ha, shift_of_odd hb, shift_of_odd (by omega), UInt32.shiftRight_xor, UInt32.xor_assoc]
  · rw [shift_of_odd ha, shift_of_even hb, shift_of_odd (by omega), UInt32.shiftRight_xor]
    ac_rfl
  · rw [shift_of_odd ha, shift_of_odd hb, shift_of_even (by omega), UInt32.shiftRight_xor, UInt32.xor_assoc (a >>> 1),
      ← UInt32.xor_assoc 0xEDB88320, UInt32.xor_comm 0xEDB88320, UInt32.xor_assoc (b >>> 1), UInt32.xor_self,
      UInt32.xor_zero]

theorem shift8_xor (a b : UInt32) : shift8 (a ^^^ b) = shift8 a ^^^ shift8 b := by
  simp only [shift8, shift_xor]

/-- The polynomial has a bit where a register that was shifted has none. -/
theorem eq_zero_of_shift (h : shift r = 0) : r = 0 := by
  have hhalf := toNat_shiftRight_one r
  have hr := r.toNat_lt
  rcases Nat.mod_two_eq_zero_or_one r.toNat with heven | hodd
  · rw [shift_of_even heven] at h
    rw [h, UInt32.toNat_zero] at hhalf
    apply UInt32.toNat_inj.mp
    rw [UInt32.toNat_zero]
    omega
  · rw [shift_of_odd hodd, UInt32.xor_eq_zero_iff] at h
    have hpolynomial : (0xEDB88320 : UInt32).toNat = 3988292384 := rfl
    rw [h, hpolynomial] at hhalf
    omega

theorem shift_injective : Function.Injective shift := by
  intro a b h
  rw [← UInt32.xor_eq_zero_iff, ← shift_xor] at h
  exact UInt32.xor_eq_zero_iff.mp (eq_zero_of_shift h)

theorem shift8_injective : Function.Injective shift8 :=
  shift_injective.iterate 8

theorem toNat_shift {n : Nat} (h : r.toNat = 2 * n) : (shift r).toNat = n := by
  rw [shift_of_even (by omega), toNat_shiftRight_one]
  omega

theorem toNat_shiftLeft_eight (r : UInt32) : (r <<< 8).toNat = 256 * r.toNat % 2 ^ 32 := by
  have hplaces : (8 : UInt32).toNat % 32 = 8 := rfl
  rw [UInt32.toNat_shiftLeft, hplaces, Nat.shiftLeft_eq, Nat.mul_comm]

theorem shift8_shiftLeft (h : r.toNat < 2 ^ 24) : shift8 (r <<< 8) = r := by
  have hleft := toNat_shiftLeft_eight r
  apply UInt32.toNat_inj.mp
  rw [shift8]
  iterate 8 refine toNat_shift ?_
  omega

/-! ## Bytes side by side -/

/-- The bytes side by side, the first one lowest. -/
def word : Bytes → UInt32
  | [] => 0
  | b :: bytes => b.toUInt32 ^^^ (word bytes <<< 8)

theorem toNat_word_lt (bytes : Bytes) : (word bytes).toNat < 2 ^ (8 * bytes.length) := by
  induction bytes with
  | nil => exact Nat.one_pos
  | cons b bytes ih =>
    have hpow : 2 ^ (8 * (b :: bytes).length) = 256 * 2 ^ (8 * bytes.length) := by
      rw [List.length_cons, Nat.mul_succ, Nat.pow_add, Nat.mul_comm]
    have hlow : b.toUInt32.toNat < 2 ^ (8 * (b :: bytes).length) := by
      have hb := b.toNat_lt
      have hpos := Nat.two_pow_pos (8 * bytes.length)
      rw [UInt8.toNat_toUInt32]
      omega
    have hhigh : (word bytes <<< 8).toNat < 2 ^ (8 * (b :: bytes).length) := by
      rw [toNat_shiftLeft_eight]
      omega
    rw [word, UInt32.toNat_xor]
    exact Nat.xor_lt_two_pow hlow hhigh

theorem shift8_word {bytes : Bytes} (h : bytes.length ≤ 3) : shift8 (word bytes <<< 8) = word bytes :=
  shift8_shiftLeft (Nat.lt_of_lt_of_le (toNat_word_lt bytes) (Nat.pow_le_pow_right (by decide) (by omega)))

theorem word_injective {bytes bytes' : Bytes} (hlength : bytes'.length = bytes.length) (hshort : bytes.length ≤ 4)
    (h : word bytes' = word bytes) : bytes' = bytes := by
  induction bytes generalizing bytes' with
  | nil => exact List.eq_nil_of_length_eq_zero hlength
  | cons b bytes ih =>
    obtain ⟨b', bytes', rfl⟩ := List.exists_cons_of_length_eq_add_one hlength
    replace hshort : bytes.length ≤ 3 := Nat.le_of_succ_le_succ hshort
    replace hlength : bytes'.length = bytes.length := Nat.succ.inj hlength
    have hlow : ∀ (b : UInt8) (r : UInt32), (b.toUInt32 ^^^ (r <<< 8)).toNat % 2 ^ 8 = b.toNat := by
      intro b r
      have hb := b.toNat_lt
      have hr : 256 * r.toNat % 2 ^ 32 % 2 ^ 8 = 0 := by omega
      rw [UInt32.toNat_xor, Nat.xor_mod_two_pow, toNat_shiftLeft_eight, hr, Nat.xor_zero, UInt8.toNat_toUInt32]
      exact Nat.mod_eq_of_lt hb
    have hb : b' = b := by
      apply UInt8.toNat_inj.mp
      rw [← hlow b' (word bytes'), ← hlow b (word bytes)]
      exact congrArg (·.toNat % 2 ^ 8) h
    subst hb
    have hrest := congrArg shift8 ((UInt32.xor_right_inj _).mp h)
    rw [shift8_word (hlength ▸ hshort), shift8_word hshort] at hrest
    rw [ih hlength (Nat.le_succ_of_le hshort) hrest]

/-! ## Pushing bytes -/

theorem register_update_of_short {bytes : Bytes} (h : bytes.length ≤ 4) (c : Checksum) :
    (c.update bytes).register = shift8^[bytes.length] (c.register ^^^ word bytes) := by
  induction bytes generalizing c with
  | nil => exact UInt32.xor_zero.symm
  | cons b bytes ih =>
    have hshort := Nat.le_of_succ_le_succ h
    calc (c.update (b :: bytes)).register
        = shift8^[bytes.length] (shift8 (c.register ^^^ b.toUInt32) ^^^ word bytes) := ih (Nat.le_succ_of_le hshort) _
      _ = shift8^[bytes.length] (shift8 (c.register ^^^ b.toUInt32 ^^^ (word bytes <<< 8))) := by
        rw [shift8_xor _ (word bytes <<< 8), shift8_word hshort]
      _ = shift8^[bytes.length + 1] (c.register ^^^ word (b :: bytes)) := by
        rw [word, ← UInt32.xor_assoc, Function.iterate_succ_apply]

theorem update_left_injective (bytes : Bytes) : Function.Injective (fun c : Checksum => c.update bytes) := by
  induction bytes with
  | nil => exact Function.injective_id
  | cons b bytes ih =>
    intro c c' h
    have hpush : c.push b = c'.push b := ih h
    have hregister := shift8_injective (congrArg register hpush)
    exact congrArg Checksum.mk ((UInt32.xor_left_inj _).mp hregister)

/-- Of as many bytes, up to four, different ones leave different registers. -/
theorem eq_of_update_eq {bytes bytes' : Bytes} (hlength : bytes'.length = bytes.length) (hshort : bytes.length ≤ 4)
    {c : Checksum} (h : c.update bytes' = c.update bytes) : bytes' = bytes := by
  have hregister := congrArg register h
  rw [register_update_of_short (hlength ▸ hshort), register_update_of_short hshort, hlength] at hregister
  have hword := (UInt32.xor_right_inj _).mp (shift8_injective.iterate _ hregister)
  exact word_injective hlength hshort hword

theorem value_injective : Function.Injective value := by
  intro ⟨r⟩ ⟨r'⟩ h
  rw [(UInt32.xor_left_inj (a := r) (b := r') _).mp h]

end Checksum

/-! ## Damage -/

/-- Other data of the same length, which differ from the data nowhere but within `width` bytes in a row. -/
structure Bytes.Damaged (width : Nat) (data damaged : Bytes) : Prop where
  length : damaged.length = data.length
  ne : damaged ≠ data
  window : ∃ start, ∀ i, damaged[i]? ≠ data[i]? → start ≤ i ∧ i < start + width

/-- What is damaged stands between what is not. -/
theorem Bytes.Damaged.split {width : Nat} {data damaged : Bytes} (h : Damaged width data damaged) :
    ∃ front hit hit' back, data = front ++ (hit ++ back) ∧ damaged = front ++ (hit' ++ back) ∧
      hit'.length = hit.length ∧ hit.length ≤ width := by
  obtain ⟨start, hwindow⟩ := h.window
  have hsame : ∀ i, i < start ∨ start + width ≤ i → damaged[i]? = data[i]? := by
    intro i hi
    by_contra hne
    have hin := hwindow i hne
    omega
  have hfront : damaged.take start = data.take start := by
    apply List.ext_getElem?
    intro i
    rw [List.getElem?_take, List.getElem?_take]
    split
    · exact hsame i (.inl ‹_›)
    · rfl
  have hback : damaged.drop (start + width) = data.drop (start + width) := by
    apply List.ext_getElem?
    intro i
    rw [List.getElem?_drop, List.getElem?_drop]
    exact hsame _ (.inr (Nat.le_add_right _ _))
  have hparts : ∀ bytes : Bytes,
      bytes = bytes.take start ++ ((bytes.drop start).take width ++ bytes.drop (start + width)) := by
    intro bytes
    rw [← List.drop_drop, List.take_append_drop, List.take_append_drop]
  refine ⟨data.take start, (data.drop start).take width, (damaged.drop start).take width, data.drop (start + width),
    hparts data, ?_, ?_, List.length_take_le _ _⟩
  · rw [← hfront, ← hback]
    exact hparts damaged
  · simp only [List.length_take, List.length_drop, h.length]

theorem Checksum.ne_of_damaged {data damaged : Bytes} (h : Bytes.Damaged 4 data damaged) :
    of damaged ≠ of data := by
  intro hsame
  obtain ⟨front, hit, hit', back, rfl, rfl, hlength, hshort⟩ := h.split
  have hupdate := value_injective hsame
  simp only [update_append] at hupdate
  have hhit := eq_of_update_eq hlength hshort (update_left_injective back hupdate)
  exact h.ne (by rw [hhit])

end SourceLabel
