import Mathlib.Data.List.Basic
import Mathlib.Data.List.Induction
import Mathlib.Tactic.Ring
import SourceLabel.Proofs.Bytes
import SourceLabel.Text.Suffix
import SourceLabel.Text.Utf8

/-!
# The end of a text that was decoded

A byte below 0x80 stands for itself wherever it is: it goes on with no sequence, so whatever is under way is cut
short before it. All other bytes stand for characters from U+0080 on or for parts of such, and what cannot be
decoded becomes U+FFFD, which is one of these too. So as far as a decoded text ends in ASCII, its bytes end in the
same way, and no such end is made up or swallowed by what stands before it.
-/
namespace SourceLabel.Text

/-- Do the bytes end with those of `suffix`? -/
def bytesEndWith (b : Bytes) (suffix : String) : Bool :=
  (utf8 suffix).isSuffixOf b

namespace Utf8

/-! ## Sequences under way -/

/-- Whatever completes the sequence makes a character from U+0080 on. -/
def Held.Sound : Held → Prop
  | .none => True
  | .part bits low high more => 0x80 ≤ low.toNat ∧ high.toNat ≤ 0xBF ∧
      ∀ n, (64 * bits + (low.toNat - 0x80)) * 64 ^ more ≤ n →
        n < (64 * bits + (high.toNat - 0x80) + 1) * 64 ^ more → 0x80 ≤ n ∧ n.isValidChar

/-- The numbers that complete a sequence lie in a row, before the surrogates or behind them. -/
theorem Held.sound_part {bits more : Nat} {low high : UInt8} (first last : Nat) (hlow : 0x80 ≤ low.toNat)
    (hhigh : high.toNat ≤ 0xBF) (hfirst : first ≤ (64 * bits + (low.toNat - 0x80)) * 64 ^ more)
    (hlast : (64 * bits + (high.toNat - 0x80) + 1) * 64 ^ more ≤ last)
    (hrow : 0x80 ≤ first ∧ (last ≤ 0xD800 ∨ 0xE000 ≤ first ∧ last ≤ 0x110000)) :
    (Held.part bits low high more).Sound := by
  refine ⟨hlow, hhigh, fun n hn hn' => ?_⟩
  have h₁ := hfirst.trans hn
  have h₂ := hn'.trans_le hlast
  simp only [Nat.isValidChar]
  omega

/-- A byte that goes on with a sequence leaves it sound. -/
theorem Held.Sound.more {bits more : Nat} {low high b : UInt8} (h : (Held.part bits low high (more + 1)).Sound)
    (hlow : low ≤ b) (hhigh : b ≤ high) :
    (Held.part (64 * bits + (b.toNat - 0x80)) 0x80 0xBF more).Sound := by
  obtain ⟨hl, hh, hrow⟩ := h
  rw [UInt8.le_iff_toNat_le] at hlow hhigh
  refine ⟨by decide, by decide, fun n hn hn' => ?_⟩
  simp only [UInt8.reduceToNat] at hn hn'
  apply hrow n
  · apply le_trans _ hn
    calc (64 * bits + (low.toNat - 0x80)) * 64 ^ (more + 1)
        = 64 * (64 * bits + (low.toNat - 0x80)) * 64 ^ more := by ring
      _ ≤ (64 * (64 * bits + (b.toNat - 0x80)) + (128 - 0x80)) * 64 ^ more := by
          apply Nat.mul_le_mul_right
          omega
  · apply hn'.trans_le
    calc (64 * (64 * bits + (b.toNat - 0x80)) + (191 - 0x80) + 1) * 64 ^ more
        ≤ 64 * (64 * bits + (high.toNat - 0x80) + 1) * 64 ^ more := by
          apply Nat.mul_le_mul_right
          omega
      _ = (64 * bits + (high.toNat - 0x80) + 1) * 64 ^ (more + 1) := by ring

theorem Held.Sound.last {bits : Nat} {low high b : UInt8} (h : (Held.part bits low high 0).Sound) (hlow : low ≤ b)
    (hhigh : b ≤ high) : 0x80 ≤ (Char.ofNat (64 * bits + (b.toNat - 0x80))).toNat := by
  obtain ⟨hl, hh, hrow⟩ := h
  rw [UInt8.le_iff_toNat_le] at hlow hhigh
  obtain ⟨hle, hvalid⟩ := hrow (64 * bits + (b.toNat - 0x80)) (by omega) (by omega)
  rw [Char.ofNat, dif_pos hvalid]
  exact hle

namespace State

variable {s : State} {b : UInt8} {c : Char}

theorem finish_emit (s : State) (c : Char) : (s.emit c).finish = s.chars.reverse ++ [c] :=
  List.reverse_cons

/-! ## One byte -/

theorem step_ascii (hs : s.held.Sound) (hb : b.toNat < 0x80) :
    (s.step b).held = .none ∧ (s.step b).finish = s.finish ++ [Char.ofNat b.toNat] := by
  have hfirst (t : State) : t.first b = t.emit (Char.ofNat b.toNat) := if_pos (UInt8.lt_iff_toNat_lt.mpr hb)
  obtain ⟨chars, held⟩ := s
  cases held with
  | none =>
    rw [step, hfirst]
    exact ⟨rfl, finish_emit _ _⟩
  | part bits low high more =>
    obtain ⟨hlow, -, -⟩ := hs
    have hout : ¬ (low ≤ b ∧ b ≤ high) := by
      rw [UInt8.le_iff_toNat_le]
      omega
    simp only [step, if_neg hout, hfirst]
    exact ⟨rfl, finish_emit _ _⟩

/-- A first byte from 0x80 on begins a sequence, or is malformed. As long as the sequence is not complete, it comes
to the same. -/
theorem first_of_le (s : State) (hb : 0x80 ≤ b.toNat) :
    (s.first b).held.Sound ∧ (s.first b).finish = s.chars.reverse ++ [replacement] := by
  have hlt : b.toNat < 256 := b.toNat_lt
  have hend (held : Held) (h : held ≠ .none) :
      ({ s with held } : State).finish = s.chars.reverse ++ [replacement] := by
    cases held with
    | none => exact absurd rfl h
    | part bits low high more => exact List.reverse_cons
  unfold first
  simp only [UInt8.lt_iff_toNat_lt, ← UInt8.toNat_inj, UInt8.reduceToNat]
  split_ifs with h₁ h₂ h₃ h₄ h₅ h₆ h₇ h₈ h₉
  · omega
  · exact ⟨trivial, finish_emit _ _⟩
  · refine ⟨Held.sound_part 0x80 0x800 (by decide) (by decide) ?_ ?_ (by decide), hend _ nofun⟩
    all_goals simp only [UInt8.reduceToNat]
    all_goals omega
  · exact ⟨Held.sound_part 0x800 0x1000 (by decide) (by decide) (by decide) (by decide) (by decide), hend _ nofun⟩
  · exact ⟨Held.sound_part 0xD000 0xD800 (by decide) (by decide) (by decide) (by decide) (by decide), hend _ nofun⟩
  · refine ⟨Held.sound_part ((b.toNat - 0xE0) * 0x1000) ((b.toNat - 0xE0 + 1) * 0x1000) (by decide) (by decide)
      ?_ ?_ (by omega), hend _ nofun⟩
    all_goals simp only [UInt8.reduceToNat]
    all_goals omega
  · exact ⟨Held.sound_part 0x10000 0x40000 (by decide) (by decide) (by decide) (by decide) (by decide), hend _ nofun⟩
  · refine ⟨Held.sound_part 0x40000 0x100000 (by decide) (by decide) ?_ ?_ (by decide), hend _ nofun⟩
    all_goals simp only [UInt8.reduceToNat]
    all_goals omega
  · exact ⟨Held.sound_part 0x100000 0x110000 (by decide) (by decide) (by decide) (by decide) (by decide), hend _ nofun⟩
  · exact ⟨trivial, finish_emit _ _⟩

theorem step_of_le (hs : s.held.Sound) (hb : 0x80 ≤ b.toNat) :
    (s.step b).held.Sound ∧ ∃ front c, (s.step b).finish = front ++ [c] ∧ 0x80 ≤ c.toNat := by
  have hreplaced (t : State) : (t.first b).held.Sound ∧
      ∃ front c, (t.first b).finish = front ++ [c] ∧ 0x80 ≤ c.toNat := by
    obtain ⟨hsound, hfinish⟩ := first_of_le t hb
    exact ⟨hsound, _, replacement, hfinish, by decide⟩
  obtain ⟨chars, held⟩ := s
  cases held with
  | none => exact hreplaced _
  | part bits low high more =>
    by_cases hin : low ≤ b ∧ b ≤ high
    · cases more with
      | zero =>
        simp only [step, if_pos hin]
        exact ⟨trivial, _, _, finish_emit _ _, hs.last hin.1 hin.2⟩
      | succ more =>
        simp only [step, if_pos hin]
        exact ⟨hs.more hin.1 hin.2, _, replacement, List.reverse_cons, by decide⟩
    · simp only [step, if_neg hin]
      exact hreplaced _

/-! ## All bytes -/

theorem sound_foldl (b : Bytes) : (b.foldl step {}).held.Sound := by
  induction b using List.reverseRecOn with
  | nil => trivial
  | append_singleton b x ih =>
    rw [List.foldl_concat]
    rcases Nat.lt_or_ge x.toNat 0x80 with hx | hx
    · rw [(step_ascii ih hx).1]
      trivial
    · exact (step_of_le ih hx).1

end State
end Utf8

theorem concat_suffix_concat {α : Type} {xs ys : List α} {x y : α} :
    xs ++ [x] <:+ ys ++ [y] ↔ x = y ∧ xs <:+ ys := by
  rw [← List.reverse_prefix, List.reverse_concat, List.reverse_concat, List.cons_prefix_cons, List.reverse_prefix]

theorem suffix_finish_iff {cs : List Char} (hcs : ∀ c ∈ cs, c.toNat < 0x80) (b : Bytes) :
    cs <:+ (b.foldl Utf8.State.step {}).finish ↔ cs.map (fun c => UInt8.ofNat c.toNat) <:+ b := by
  induction cs using List.reverseRecOn generalizing b with
  | nil => exact iff_of_true (List.nil_suffix) (List.nil_suffix)
  | append_singleton cs c ih =>
    have hc : c.toNat < 0x80 := hcs c (List.mem_append_right _ (List.mem_singleton_self c))
    have hrest := ih fun d hd => hcs d (List.mem_append_left _ hd)
    have hbyte : (UInt8.ofNat c.toNat).toNat = c.toNat := Bytes.toNat_ofNat.trans (Nat.mod_eq_of_lt (by omega))
    rw [List.map_append, List.map_singleton]
    induction b using List.reverseRecOn with
    | nil =>
      have hempty : ((([] : Bytes).foldl Utf8.State.step {}).finish) = [] := rfl
      rw [hempty, List.suffix_nil, List.suffix_nil]
      simp
    | append_singleton b x _ =>
      have hsound := Utf8.State.sound_foldl b
      rw [List.foldl_concat]
      rcases Nat.lt_or_ge x.toNat 0x80 with hx | hx
      · have hchar : c = Char.ofNat x.toNat ↔ UInt8.ofNat c.toNat = x := by
          constructor
          · rintro rfl
            rw [Char.ofNat, dif_pos (Or.inl (by omega))]
            exact UInt8.ofNat_toNat
          · rintro rfl
            rw [hbyte, Char.ofNat_toNat]
        rw [(Utf8.State.step_ascii hsound hx).2, concat_suffix_concat, concat_suffix_concat, hrest, hchar]
      · obtain ⟨-, front, d, hfinish, hd⟩ := Utf8.State.step_of_le hsound hx
        rw [hfinish, concat_suffix_concat, concat_suffix_concat]
        -- neither the last character nor the last byte is ASCII
        refine iff_of_false ?_ ?_
        · rintro ⟨rfl, -⟩
          omega
        · rintro ⟨rfl, -⟩
          omega

theorem utf8EncodeChar_ascii {c : Char} (hc : c.toNat < 0x80) : String.utf8EncodeChar c = [UInt8.ofNat c.toNat] :=
  if_pos (Nat.le_of_lt_succ hc)

/-- A decoded text ends in an ASCII text exactly if its bytes end in the bytes of that text. -/
theorem endsWith_ofUtf8Lossy {suffix : String} (h : ∀ c ∈ suffix.toList, c.toNat < 0x80) (b : Bytes) :
    endsWith (ofUtf8Lossy b) suffix = bytesEndWith b suffix := by
  have hbytes : utf8 suffix = suffix.toList.map fun c => UInt8.ofNat c.toNat := by
    rw [List.map_eq_flatMap]
    exact List.flatMap_congr fun c hc => utf8EncodeChar_ascii (h c hc)
  rw [Bool.eq_iff_iff, endsWith, bytesEndWith, List.isSuffixOf_iff_suffix, List.isSuffixOf_iff_suffix, ofUtf8Lossy,
    String.toList_ofList, hbytes]
  exact suffix_finish_iff h b

end SourceLabel.Text
