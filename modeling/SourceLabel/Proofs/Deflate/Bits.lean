import Mathlib
import SourceLabel.Deflate.Bits
import SourceLabel.Proofs.Bytes

/-!
# Bits read back

A source stands for the list of its bits. What is read from it are the first of them, and the source after
that stands for the rest. Packed bits are read back as they were, with zeros after them.
-/
namespace SourceLabel.Deflate

/-! ## Numbers as bits -/

@[simp] theorem length_bitsOfNumber (width n : Nat) : (bitsOfNumber width n).length = width := by
  induction width generalizing n with
  | zero => rfl
  | succ width ih => rw [bitsOfNumber, List.length_cons, ih]

theorem numberOfBits_bitsOfNumber {width n : Nat} (h : n < 2 ^ width) :
    numberOfBits (bitsOfNumber width n) = n := by
  induction width generalizing n with
  | zero =>
    have hz : n = 0 := by simpa using h
    rw [hz]
    rfl
  | succ width ih =>
    have hd : n / 2 < 2 ^ width := by
      rw [Nat.pow_succ] at h
      omega
    have hb : (n % 2 == 1).toNat = n % 2 := by
      rcases Nat.mod_two_eq_zero_or_one n with h₀ | h₁
      · rw [h₀]
        rfl
      · rw [h₁]
        rfl
    rw [bitsOfNumber, numberOfBits, ih hd, hb]
    omega

theorem numberOfBits_lt (bits : List Bool) : numberOfBits bits < 2 ^ bits.length := by
  induction bits with
  | nil => exact Nat.one_pos
  | cons b bits ih =>
    have hb := Bool.toNat_lt b
    rw [numberOfBits, List.length_cons, Nat.pow_succ]
    omega

theorem bitsOfNumber_numberOfBits (bits : List Bool) :
    bitsOfNumber bits.length (numberOfBits bits) = bits := by
  induction bits with
  | nil => rfl
  | cons b bits ih =>
    have hd : (b.toNat + 2 * numberOfBits bits) / 2 = numberOfBits bits := by
      have hb := Bool.toNat_lt b
      omega
    have hm : ((b.toNat + 2 * numberOfBits bits) % 2 == 1) = b := by
      rw [Nat.add_mul_mod_self_left]
      cases b <;> rfl
    rw [numberOfBits, List.length_cons, bitsOfNumber, hd, hm, ih]

theorem bitsOfNumber_add (width more n : Nat) (h : n < 2 ^ width) :
    bitsOfNumber (width + more) n = bitsOfNumber width n ++ List.replicate more false := by
  induction width generalizing n with
  | zero =>
    have hz : n = 0 := by simpa using h
    rw [hz, Nat.zero_add]
    induction more with
    | zero => rfl
    | succ more ih =>
      rw [bitsOfNumber, List.replicate_succ]
      exact congrArg _ ih
  | succ width ih =>
    have hd : n / 2 < 2 ^ width := by
      rw [Nat.pow_succ] at h
      omega
    rw [Nat.succ_add, bitsOfNumber, ih _ hd, bitsOfNumber]
    rfl

theorem bitsOfByte_numberOfBits {bits : List Bool} (h : bits.length ≤ 8) :
    bitsOfByte (UInt8.ofNat (numberOfBits bits)) = bits ++ List.replicate (8 - bits.length) false := by
  have hlt := numberOfBits_lt bits
  have hle : 2 ^ bits.length ≤ 2 ^ 8 := Nat.pow_le_pow_right (by omega) h
  have hv : (UInt8.ofNat (numberOfBits bits)).toNat = numberOfBits bits := by
    rw [Bytes.toNat_ofNat]
    exact Nat.mod_eq_of_lt (Nat.lt_of_lt_of_le hlt hle)
  have hs : (8 : Nat) = bits.length + (8 - bits.length) := by omega
  unfold bitsOfByte
  rw [hv, hs, bitsOfNumber_add _ _ _ hlt, bitsOfNumber_numberOfBits, ← hs]

/-! ## Packing -/

def bitsOfBytes (b : Bytes) : List Bool :=
  b.flatMap bitsOfByte

@[simp] theorem length_bitsOfBytes (b : Bytes) : (bitsOfBytes b).length = 8 * b.length := by
  induction b with
  | nil => rfl
  | cons x b ih =>
    have hx : (bitsOfByte x).length = 8 := length_bitsOfNumber 8 _
    have hc : bitsOfBytes (x :: b) = bitsOfByte x ++ bitsOfBytes b := rfl
    rw [hc, List.length_append, hx, ih, List.length_cons]
    omega

@[simp] theorem bitsOfBytes_append (a b : Bytes) : bitsOfBytes (a ++ b) = bitsOfBytes a ++ bitsOfBytes b :=
  List.flatMap_append

theorem bitsOfBytes_reverse_cons {bits : List Bool} (h : bits.length ≤ 8) (acc : Bytes) :
    bitsOfBytes (UInt8.ofNat (numberOfBits bits) :: acc).reverse =
      bitsOfBytes acc.reverse ++ (bits ++ List.replicate (8 - bits.length) false) := by
  rw [List.reverse_cons, bitsOfBytes_append, ← bitsOfByte_numberOfBits h]
  exact congrArg _ (List.append_nil _)

theorem bitsOfBytes_pack_go (acc : Bytes) (bits : List Bool) :
    ∃ more, bitsOfBytes (pack.go acc bits) =
      bitsOfBytes acc.reverse ++ (bits ++ List.replicate more false) := by
  fun_induction pack.go acc bits with
  | case1 acc a b c d e f g h rest ih =>
    obtain ⟨more, hm⟩ := ih
    have ho : [a, b, c, d, e, f, g, h].length ≤ 8 := Nat.le_refl 8
    refine ⟨more, ?_⟩
    rw [hm, bitsOfBytes_reverse_cons ho, List.append_assoc]
    rfl
  | case2 acc => exact ⟨0, (List.append_nil _).symm⟩
  | case3 acc rest hlong _ =>
    have hs : rest.length ≤ 8 := by
      rcases rest with _ | ⟨a, _ | ⟨b, _ | ⟨c, _ | ⟨d, _ | ⟨e, _ | ⟨f, _ | ⟨g, _ | ⟨h, rest⟩⟩⟩⟩⟩⟩⟩⟩
      case cons.cons.cons.cons.cons.cons.cons.cons => exact (hlong a b c d e f g h rest rfl).elim
      all_goals simp
    exact ⟨8 - rest.length, bitsOfBytes_reverse_cons hs acc⟩

/-- Packed bits are the bits themselves, with zeros up to the end of the last byte. -/
theorem bitsOfBytes_pack (bits : List Bool) :
    ∃ more, bitsOfBytes (pack bits) = bits ++ List.replicate more false :=
  bitsOfBytes_pack_go [] bits

/-! ## Reading -/

namespace Source

theorem next?_of_toList {s : Source} {b : Bool} {rest : List Bool} (h : s.toList = b :: rest) :
    ∃ s', s.next? = some (b, s') ∧ s'.toList = rest := by
  obtain ⟨pending, bytes, taken⟩ := s
  cases pending with
  | cons c pending =>
    have hc := List.cons.inj h
    exact ⟨⟨pending, bytes, taken⟩, by rw [next?, hc.1], hc.2⟩
  | nil =>
    cases bytes with
    | nil => exact nomatch h
    | cons x bytes =>
      -- a byte has eight bits, so there is a first one
      have hx : bitsOfByte x = (x.toNat % 2 == 1) :: bitsOfNumber 7 (x.toNat / 2) := rfl
      have hl : (⟨[], x :: bytes, taken⟩ : Source).toList = bitsOfByte x ++ bitsOfBytes bytes := rfl
      rw [hl, hx] at h
      have hc := List.cons.inj h
      refine ⟨⟨bitsOfNumber 7 (x.toNat / 2), bytes, taken + 1⟩, ?_, hc.2⟩
      simp only [next?, hx, hc.1]

theorem number?_of_toList {s : Source} {bits rest : List Bool} (h : s.toList = bits ++ rest) :
    ∃ s', s.number? bits.length = some (numberOfBits bits, s') ∧ s'.toList = rest := by
  induction bits generalizing s with
  | nil => exact ⟨s, rfl, h⟩
  | cons b bits ih =>
    obtain ⟨s₁, hn, h₁⟩ := next?_of_toList h
    obtain ⟨s₂, hm, h₂⟩ := ih h₁
    refine ⟨s₂, ?_, h₂⟩
    simp only [List.length_cons, number?, hn, hm, numberOfBits]

/-- A number that fits into `width` bits is read back from them. -/
theorem number?_bitsOfNumber {s : Source} {width n : Nat} {rest : List Bool} (hn : n < 2 ^ width)
    (h : s.toList = bitsOfNumber width n ++ rest) :
    ∃ s', s.number? width = some (n, s') ∧ s'.toList = rest := by
  obtain ⟨s', hs, ht⟩ := number?_of_toList h
  rw [length_bitsOfNumber, numberOfBits_bitsOfNumber hn] at hs
  exact ⟨s', hs, ht⟩

end Source

end SourceLabel.Deflate
