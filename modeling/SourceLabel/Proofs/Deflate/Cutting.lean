import SourceLabel.Deflate.Repetition
import SourceLabel.Proofs.Deflate.Symbols

/-!
# Cutting data into tokens

The tokens of data stand for the data again, whatever places are proposed for copies: a copy only covers
bytes that were compared. Each token has numbers that the alphabets can say, and no copy begins before
the data.
-/
namespace SourceLabel.Deflate

namespace Token

/-! ## Comparing -/

theorem agreement_le (data : Array UInt8) (most a b : Nat) : agreement data most a b ≤ most := by
  induction most generalizing a b with
  | zero => exact Nat.le_refl 0
  | succ most ih =>
    have hi := ih (a + 1) (b + 1)
    rw [agreement]
    split
    · split
      · omega
      · exact Nat.zero_le _
    · exact Nat.zero_le _

theorem exists_of_lt_agreement {data : Array UInt8} {most a b k : Nat} (h : k < agreement data most a b) :
    ∃ x, data[a + k]? = some x ∧ data[b + k]? = some x := by
  induction most generalizing a b k with
  | zero => exact absurd h (Nat.not_lt_zero k)
  | succ most ih =>
    rw [agreement] at h
    split at h
    · next x y hx hy =>
      split at h
      · next he =>
        cases k with
        | zero => exact ⟨x, hx, by rw [he]; exact hy⟩
        | succ k =>
          obtain ⟨z, ha, hb⟩ := ih (Nat.lt_of_succ_lt_succ h)
          have hak : a + (k + 1) = a + 1 + k := by omega
          have hbk : b + (k + 1) = b + 1 + k := by omega
          rw [hak, hbk]
          exact ⟨z, ha, hb⟩
      · exact absurd h (Nat.not_lt_zero k)
    · exact absurd h (Nat.not_lt_zero k)

/-- A copy at `pos` whose bytes all stand where it says. -/
structure Match.Holds (data : Array UInt8) (pos : Nat) (m : Match) : Prop where
  length_le : m.length ≤ maxLength
  distance : 0 < m.length → 1 ≤ m.distance ∧ m.distance ≤ maxDistance ∧ m.distance ≤ pos
  bytes : ∀ k < m.length, ∃ x, data[pos - m.distance + k]? = some x ∧ data[pos + k]? = some x

theorem Match.holds_none (data : Array UInt8) (pos : Nat) : ({} : Match).Holds data pos where
  length_le := Nat.zero_le _
  distance h := absurd h (Nat.lt_irrefl 0)
  bytes k h := absurd h (Nat.not_lt_zero k)

theorem Match.holds_agreement {data : Array UInt8} {pos place : Nat} (hp : place < pos)
    (hd : pos - place ≤ maxDistance) :
    (⟨agreement data maxLength place pos, pos - place⟩ : Match).Holds data pos where
  length_le := agreement_le data maxLength place pos
  distance _ := by
    simp only
    omega
  bytes k h := by
    have hs : pos - (pos - place) = place := by omega
    rw [hs]
    exact exists_of_lt_agreement h

theorem holds_longest (data : Array UInt8) (pos : Nat) (places : List Nat) :
    (longest data pos places).Holds data pos := by
  unfold longest
  have hstart := Match.holds_none data pos
  generalize ({} : Match) = best at hstart
  induction places generalizing best with
  | nil => exact hstart
  | cons place places ih =>
    rw [List.foldl_cons]
    apply ih
    by_cases hc : place < pos ∧ pos - place ≤ maxDistance
    · simp only [if_pos hc]
      split
      · exact Match.holds_agreement hc.1 hc.2
      · exact hstart
    · simp only [if_neg hc, Nat.not_lt_zero, if_false]
      exact hstart

/-! ## Copying -/

theorem copyBack_take {data : Array UInt8} {distance pos length : Nat} (hone : 1 ≤ distance)
    (hpos : distance ≤ pos)
    (h : ∀ k < length, ∃ x, data[pos - distance + k]? = some x ∧ data[pos + k]? = some x)
    {out : Array UInt8} (hout : out.toList = data.toList.take pos) (hsize : out.size = pos) :
    (copyBack distance length out).toList = data.toList.take (pos + length) := by
  induction length generalizing pos out with
  | zero => exact hout
  | succ length ih =>
    obtain ⟨x, hx, hy⟩ := h 0 (Nat.succ_pos length)
    rw [Nat.add_zero] at hx hy
    have hlt : pos - distance < pos := by omega
    have hget : out[out.size - distance]? = some x := by
      rw [hsize, ← Array.getElem?_toList, hout, List.getElem?_take_of_lt hlt, Array.getElem?_toList]
      exact hx
    have hpush : (out.push x).toList = data.toList.take (pos + 1) := by
      rw [Array.toList_push, hout, List.take_add_one, Array.getElem?_toList, hy]
      rfl
    have hadd : pos + (length + 1) = pos + 1 + length := by omega
    rw [copyBack, hget, hadd]
    apply ih
    · omega
    · intro k hk
      obtain ⟨z, hz₁, hz₂⟩ := h (k + 1) (Nat.succ_lt_succ hk)
      have h₁ : pos + 1 - distance + k = pos - distance + (k + 1) := by omega
      have h₂ : pos + 1 + k = pos + (k + 1) := by omega
      rw [h₁, h₂]
      exact ⟨z, hz₁, hz₂⟩
    · exact hpush
    · rw [Array.size_push, hsize]

/-! ## Sequences of tokens -/

/-- Tokens that can be written and expanded one after another. -/
def Sound (out : Array UInt8) : List Token → Prop
  | [] => True
  | token :: tokens => token.Codable ∧ token.reaches out ∧ Sound (token.expand out) tokens

theorem Sound.snoc {out : Array UInt8} {tokens : List Token} {token : Token} (h : Sound out tokens)
    (hc : token.Codable) (hr : token.reaches (tokens.foldl expand out)) : Sound out (tokens ++ [token]) := by
  induction tokens generalizing out with
  | nil => exact ⟨hc, hr, trivial⟩
  | cons first tokens ih => exact ⟨h.1, h.2.1, ih h.2.2 hr⟩

/-- Tokens for the first `stop` bytes of data. -/
structure Covers (data : Array UInt8) (stop : Nat) (tokens : List Token) : Prop where
  sound : Sound #[] tokens
  expanded : (tokens.foldl expand #[]).toList = data.toList.take stop

theorem Covers.size {data : Array UInt8} {stop : Nat} {tokens : List Token} (h : Covers data stop tokens)
    (hs : stop ≤ data.size) : (tokens.foldl expand #[]).size = stop := by
  rw [← Array.length_toList, h.expanded, List.length_take, Array.length_toList]
  exact Nat.min_eq_left hs

theorem Covers.literal {data : Array UInt8} {stop : Nat} {tokens : List Token} (h : Covers data stop tokens)
    {b : UInt8} (hb : data[stop]? = some b) : Covers data (stop + 1) (tokens ++ [.literal b]) where
  sound := h.sound.snoc trivial rfl
  expanded := by
    rw [List.foldl_append, List.take_add_one, Array.getElem?_toList, hb, ← h.expanded]
    exact Array.toList_push

theorem Covers.copy {data : Array UInt8} {stop : Nat} {tokens : List Token} (h : Covers data stop tokens)
    (hs : stop ≤ data.size) {m : Match} (hm : m.Holds data stop) (hl : minLength ≤ m.length) :
    Covers data (stop + m.length) (tokens ++ [.copy m.length m.distance]) := by
  have hpos : 0 < m.length := Nat.lt_of_lt_of_le (by decide) hl
  obtain ⟨hone, hfar, hback⟩ := hm.distance hpos
  have hsize := h.size hs
  constructor
  · apply h.sound.snoc
    · exact ⟨⟨hl, hm.length_le⟩, hone, hfar⟩
    · rw [reaches, hsize]
      exact decide_eq_true hback
  · rw [List.foldl_append]
    exact copyBack_take hone hback hm.bytes h.expanded hsize

/-- Cutting goes on from tokens for the data before `pos`; `skip` bytes from there are covered as well. -/
theorem covers_cut {data : Array UInt8} (effort : Nat) (index : Index) {left skip : Nat} {acc : List Token}
    (hleft : left ≤ data.size) (hskip : skip ≤ left)
    (h : Covers data (data.size - left + skip) acc.reverse) :
    Covers data data.size (cut data effort left skip index acc) := by
  induction left generalizing skip index acc with
  | zero =>
    have hz : skip = 0 := by omega
    rw [hz] at h
    rw [cut]
    exact h
  | succ left ih =>
    cases skip with
    | succ skip =>
      have hs : data.size - (left + 1) + (skip + 1) = data.size - left + skip := by omega
      rw [hs] at h
      rw [cut]
      exact ih _ (by omega) (by omega) h
    | zero =>
      have hlt : data.size - (left + 1) < data.size := by omega
      have hnext : data.size - left = data.size - (left + 1) + 1 := by omega
      rw [Nat.add_zero] at h
      rw [cut]
      have hm := holds_longest data (data.size - (left + 1))
        (index.places data (data.size - (left + 1)))
      generalize longest data _ _ = found at hm
      split
      · next hl =>
        have hpos : 0 < found.length := Nat.lt_of_lt_of_le (by decide) hl
        have hsum : data.size - left + (found.length - 1) = data.size - (left + 1) + found.length := by
          omega
        -- the last byte of the copy stands in the data, so the copy ends there as well
        obtain ⟨x, -, hx⟩ := hm.bytes (found.length - 1) (by omega)
        have hin := (Array.getElem?_eq_some_iff.mp hx).1
        apply ih
        · omega
        · omega
        · rw [List.reverse_cons, hsum]
          exact h.copy (by omega) hm hl
      · rw [Array.getElem?_eq_getElem hlt]
        apply ih
        · omega
        · exact Nat.zero_le left
        · rw [List.reverse_cons, hnext]
          exact h.literal (Array.getElem?_eq_getElem hlt)

theorem covers_ofBytes (data : Bytes) (effort : Nat) :
    Sound #[] (ofBytes data effort) ∧ toBytes (ofBytes data effort) = data := by
  have hz : data.toArray.size - data.length + 0 = 0 := by
    rw [List.size_toArray]
    omega
  have hstart : Covers data.toArray (data.toArray.size - data.length + 0) ([] : List Token).reverse := by
    rw [hz]
    exact ⟨trivial, rfl⟩
  have h := covers_cut effort ∅ (Nat.le_of_eq (List.size_toArray).symm) (Nat.zero_le _) hstart
  refine ⟨h.sound, ?_⟩
  rw [toBytes, ofBytes, h.expanded, List.size_toArray]
  exact List.take_length

end Token
end SourceLabel.Deflate
