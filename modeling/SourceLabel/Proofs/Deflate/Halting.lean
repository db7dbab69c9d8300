import SourceLabel.Proofs.Deflate.RoundTrip
import SourceLabel.Proofs.Result

/-!
# How many bytes there are when decoding ends

Decoding takes nothing back, and yields no more bytes than are wanted. It may halt before the end of the final
block because all of them are there; then there are exactly as many as were wanted.
-/
namespace SourceLabel.Deflate

open Inflate Result

variable {literals distances : Tree} {s s' : Source} {p p' : Portion} {out out' : Array UInt8} {limit fuel : Nat}

namespace Inflate

/-- If decoding halts because all bytes are there, there are as many as were asked for. -/
def Halt.FullAt (limit : Nat) : Halt → Prop
  | .full out => out.size = limit
  | .fault _ => True

theorem fullAt_halt (hout : out.size ≤ limit) (cause : Fault) : (halt limit out cause).FullAt limit := by
  cases cause with
  | corrupt => trivial
  | truncated =>
    rw [halt]
    split
    · next hfull => exact Nat.le_antisymm hout hfull
    · trivial

/-- From `out` on, decoding has taken nothing back and kept to the limit, however it ended. -/
def Bounded (limit : Nat) (out : Array UInt8) (yielded : α → Array UInt8) : Except Halt α → Prop
  | .ok result => out.size ≤ (yielded result).size ∧ (yielded result).size ≤ limit
  | .error halt => halt.FullAt limit

namespace Bounded

variable {α : Type} {yielded : α → Array UInt8} {x : Except Halt α} {result : α}

theorem of_ok (h : Bounded limit out yielded x) (hx : x = .ok result) :
    out.size ≤ (yielded result).size ∧ (yielded result).size ≤ limit := by
  rw [hx] at h
  exact h

theorem of_error {cause : Halt} (h : Bounded limit out yielded x) (hx : x = .error cause) : cause.FullAt limit := by
  rw [hx] at h
  exact h

theorem mono (hle : out.size ≤ out'.size) (h : Bounded limit out' yielded x) : Bounded limit out yielded x := by
  cases x with
  | error _ => exact h
  | ok _ => exact ⟨Nat.le_trans hle h.1, h.2⟩

end Bounded

/-! ## Blocks -/

theorem bounded_tokens (hout : out.size ≤ limit) :
    Bounded limit out (·.2.2) (tokens literals distances limit fuel s p out) := by
  induction fuel generalizing s p out with
  | zero => exact fullAt_halt hout _
  | succ fuel ih =>
    rw [tokens]
    split
    · exact fullAt_halt hout _
    · exact ⟨Nat.le_refl _, hout⟩
    next token s₁ _ =>
    split
    · next hfull => exact Nat.le_antisymm hout hfull
    split
    · trivial
    dsimp only
    split
    · next hover =>
      show (Array.take _ limit).size = limit
      rw [Array.take_eq_extract, Array.size_extract]
      omega
    · next hroom => exact (ih (Nat.not_lt.mp hroom)).mono (size_le_expand out token)

theorem bounded_copyStored {length : Nat} (hout : out.size ≤ limit) :
    Bounded limit out (·.2.2) (copyStored limit length s p out) := by
  induction length generalizing s p out with
  | zero => exact ⟨Nat.le_refl _, hout⟩
  | succ length ih =>
    rw [copyStored]
    split
    · next hfull => exact Nat.le_antisymm hout hfull
    next hroom =>
    dsimp only
    split
    · trivial
    next b s₁ _ =>
    have hpush : (out.push b).size = out.size + 1 := Array.size_push b
    exact (ih (by omega)).mono (by omega)

theorem bounded_stored (hout : out.size ≤ limit) : Bounded limit out (·.2.2) (stored limit s p out) := by
  unfold stored
  split
  · exact fullAt_halt hout _
  · dsimp only
    split
    · trivial
    · exact bounded_copyStored hout

/-- What follows the three bits of a block of some kind. -/
def body (limit bound kind : Nat) (s : Source) (p : Portion) (out : Array UInt8) :
    Except Halt (Source × Portion × Array UInt8) :=
  match kind with
  | 0 => stored limit s p out
  | 1 => tokens (treeOfLengths fixedLiteralLengths) (treeOfLengths fixedDistanceLengths) limit bound s p out
  | 2 =>
    match trees s with
    | .error cause => .error (halt limit out cause)
    | .ok (literals, distances, s) => tokens literals distances limit bound s p out
  | _ => .error (.fault .corrupt)

theorem bounded_body {bound kind : Nat} (hout : out.size ≤ limit) :
    Bounded limit out (·.2.2) (body limit bound kind s p out) := by
  unfold body
  split
  · exact bounded_stored hout
  · exact bounded_tokens hout
  · split
    · exact fullAt_halt hout _
    · exact bounded_tokens hout
  · trivial

theorem block_eq_body {bound : Nat} (kind : Nat) {final : Bool} {s₁ : Source}
    (h : s.number? 3 = some (final.toNat + 2 * kind, s₁)) :
    block limit bound s p out = (body limit bound kind s₁ p out).map fun r => (final, r) := by
  have hfinal : ((final.toNat + 2 * kind) % 2 == 1) = final := by
    cases final <;> simp [Nat.add_mul_mod_self_left]
  have hkind : (final.toNat + 2 * kind) / 2 = kind := by
    rw [Nat.add_mul_div_left _ _ (by decide), Nat.div_eq_of_lt (Bool.toNat_lt final), Nat.zero_add]
  unfold block
  simp only [h, hfinal, hkind]
  match kind with
  | 0 =>
    cases hbody : stored limit s₁ p out <;> simp only [body, hbody] <;> rfl
  | 1 =>
    cases hbody : tokens (treeOfLengths fixedLiteralLengths) (treeOfLengths fixedDistanceLengths) limit bound s₁ p out
      <;> simp only [body, hbody] <;> rfl
  | 2 =>
    cases htrees : trees s₁ with
    | error cause =>
      simp only [body, htrees]
      rfl
    | ok t =>
      obtain ⟨literals, distances, s₂⟩ := t
      simp only [body, htrees]
      show (tokens literals distances limit bound s₂ p out >>= _) = _
      cases hbody : tokens literals distances limit bound s₂ p out <;> rfl
  | _ + 3 => rfl

theorem exists_header (header : Nat) : ∃ (final : Bool) (kind : Nat), header = final.toNat + 2 * kind := by
  refine ⟨header % 2 == 1, header / 2, ?_⟩
  rcases Nat.mod_two_eq_zero_or_one header with h | h <;> simp [h] <;> omega

theorem block_cases (limit bound : Nat) (s : Source) (p : Portion) (out : Array UInt8) :
    block limit bound s p out = .error (halt limit out .truncated) ∨
      ∃ (final : Bool) (kind : Nat) (s₁ : Source), s.number? 3 = some (final.toNat + 2 * kind, s₁) ∧
        block limit bound s p out = (body limit bound kind s₁ p out).map fun r => (final, r) := by
  cases hnumber : s.number? 3 with
  | none =>
    refine .inl ?_
    unfold block
    rw [hnumber]
    rfl
  | some r =>
    obtain ⟨header, s₁⟩ := r
    obtain ⟨final, kind, rfl⟩ := exists_header header
    exact .inr ⟨final, kind, s₁, rfl, block_eq_body kind hnumber⟩

theorem block_eq_ok {bound : Nat} {final : Bool} (h : block limit bound s p out = .ok (final, s', p', out')) :
    ∃ kind s₁, s.number? 3 = some (final.toNat + 2 * kind, s₁) ∧
      body limit bound kind s₁ p out = .ok (s', p', out') := by
  rcases block_cases limit bound s p out with hnone | ⟨final₁, kind, s₁, hnumber, hblock⟩
  · rw [hnone] at h
    cases h
  · rw [hblock] at h
    obtain ⟨result, hbody, hr⟩ := map_eq_ok.mp h
    obtain ⟨rfl, rfl⟩ := Prod.mk.inj hr
    exact ⟨kind, s₁, hnumber, hbody⟩

theorem bounded_block {bound : Nat} (hout : out.size ≤ limit) :
    Bounded limit out (·.2.2.2) (block limit bound s p out) := by
  rcases block_cases limit bound s p out with hnone | ⟨final, kind, s₁, -, hblock⟩
  · rw [hnone]
    exact fullAt_halt hout _
  · have hbody : Bounded limit out (·.2.2) (body limit bound kind s₁ p out) := bounded_body hout
    rw [hblock]
    cases hresult : body limit bound kind s₁ p out with
    | error _ => exact hbody.of_error hresult
    | ok _ => exact hbody.of_ok hresult

/-! ## The stream -/

theorem bounded_blocks (hout : out.size ≤ limit) : Bounded limit out id (blocks limit fuel s p out) := by
  induction fuel generalizing s p out with
  | zero => exact fullAt_halt hout _
  | succ fuel ih =>
    rw [blocks]
    split
    · next hblock => exact (bounded_block hout).of_error hblock
    next hblock =>
    obtain ⟨hle, hlimit⟩ := (bounded_block hout).of_ok hblock
    split
    · exact ⟨hle, hlimit⟩
    · exact (ih hlimit).mono hle

end Inflate

theorem inflate_length_le {raw data : Bytes} (h : inflate raw limit = .ok data) : data.length ≤ limit := by
  have hempty : (#[] : Array UInt8).size ≤ limit := Nat.zero_le limit
  unfold inflate at h
  split at h
  · obtain rfl := Except.ok.inj h
    exact Nat.zero_le _
  split at h
  · next out hblocks =>
    obtain rfl := Except.ok.inj h
    exact ((bounded_blocks hempty).of_ok hblocks).2
  · next out hblocks =>
    obtain rfl := Except.ok.inj h
    exact Nat.le_of_eq ((bounded_blocks hempty).of_error hblocks)
  · cases h

end SourceLabel.Deflate
