import SourceLabel.Proofs.ClassFile.Layout
import SourceLabel.Proofs.ClassFile.Relabelled

/-!
# What is fetched from a pool

A pool that was read has as many slots as the count before it says. Every index below the count leads to a
constant, except 0 and those that follow a number of 64 bits. A text that is set takes the place of a text, and
a text that is refused changes nothing. So no index ever gains or loses a constant, however many texts are set:
each constant stays of its kind, and those at which no text was set stay as they were read.
-/
namespace SourceLabel.ClassFile

theorem Constant.isWide_iff {k : Constant} : k.isWide = true ↔ ∃ bits, k = .long bits ∨ k = .double bits := by
  cases k <;> simp [Constant.isWide]

namespace ConstantPool

variable {p q r : ConstantPool} {i j n : Index} {s : String} {old : Bytes}

def attemptText (p : ConstantPool) (call : Index × String) : ConstantPool :=
  match p.setText call.1 call.2 with
  | .ok q => q
  | .error _ => p

def attemptTexts (p : ConstantPool) (calls : List (Index × String)) : ConstantPool :=
  calls.foldl attemptText p

/-! ## What is fetched -/

/-- A pool with `n` slots, as far as it shows in what can be fetched. -/
structure LaidOut (p : ConstantPool) (n : Index) : Prop where
  pos : 1 ≤ n.toNat
  size : p.slots.size = n.toNat
  get?_eq_none_iff : ∀ i, p.get? i = none ↔
    i = 0 ∨ n ≤ i ∨ ∃ bits, p.get? (i - 1) = some (.long bits) ∨ p.get? (i - 1) = some (.double bits)
  last : ∀ k, p.get? (n - 1) = some k → k.isWide = false
  texts : ∀ i text, p.get? i = some (.utf8 text) → text.length ≤ 65535

theorem get?_eq_some_iff {k : Constant} : p.get? i = some k ↔ p.slots[i.toNat]? = some (some k) := by
  rw [get?, Option.join_eq_some_iff]

theorem get?_eq_none_iff : p.get? i = none ↔ p.slots.size ≤ i.toNat ∨ p.slots[i.toNat]? = some none := by
  rw [get?, Option.join_eq_none_iff, Array.getElem?_eq_none_iff]

theorem exists_wide_iff :
    (∃ k, p.get? i = some k ∧ k.isWide = true) ↔
      ∃ bits, p.get? i = some (.long bits) ∨ p.get? i = some (.double bits) := by
  simp only [Constant.isWide_iff]
  constructor
  · rintro ⟨k, hk, bits, rfl | rfl⟩
    · exact ⟨bits, .inl hk⟩
    · exact ⟨bits, .inr hk⟩
  · rintro ⟨bits, hk | hk⟩
    · exact ⟨_, hk, bits, .inl rfl⟩
    · exact ⟨_, hk, bits, .inr rfl⟩

theorem toNat_sub_one (h : i ≠ 0) : i.toNat = (i - 1).toNat + 1 := by
  have hpos : i.toNat ≠ 0 := fun h₀ => h (UInt16.toNat_inj.mp h₀)
  have hle : (1 : UInt16) ≤ i := UInt16.le_iff_toNat_le.mpr (Nat.one_le_iff_ne_zero.mpr hpos)
  rw [UInt16.toNat_sub_of_le _ _ hle]
  exact (Nat.succ_pred_eq_of_ne_zero hpos).symm

/-- A slot of a pool that was read is empty if it is the first or follows a wide constant. -/
theorem Arranged.getElem?_eq_none_iff (h : p.Arranged) (hi : i.toNat < p.slots.size) :
    p.slots[i.toNat]? = some none ↔
      i = 0 ∨ ∃ bits, p.get? (i - 1) = some (.long bits) ∨ p.get? (i - 1) = some (.double bits) := by
  by_cases hzero : i = 0
  · rw [hzero]
    exact iff_of_true h.first (.inl rfl)
  · have hprev := toNat_sub_one hzero
    rw [hprev] at hi ⊢
    simp only [h.empty_iff _ hi, ← get?_eq_some_iff, exists_wide_iff, hzero, false_or]

theorem Arranged.laidOut (h : p.Arranged) (hn : p.slots.size = n.toNat) : p.LaidOut n := by
  have hpos : 1 ≤ n.toNat := by
    obtain ⟨hlt, -⟩ := Array.getElem?_eq_some_iff.mp h.first
    rw [← hn]
    exact hlt
  have hne : n ≠ 0 := by
    rintro rfl
    exact absurd hpos (by decide)
  constructor
  · exact hpos
  · exact hn
  · intro i
    rw [ConstantPool.get?_eq_none_iff, UInt16.le_iff_toNat_le, ← hn]
    by_cases hi : i.toNat < p.slots.size
    · rw [h.getElem?_eq_none_iff hi]
      simp only [Nat.not_le.mpr hi, false_or]
    · exact iff_of_true (.inl (Nat.not_lt.mp hi)) (.inr (.inl (Nat.not_lt.mp hi)))
  · intro k hk
    apply h.last
    rw [Array.back?, hn, toNat_sub_one hne, Nat.add_sub_cancel]
    exact get?_eq_some_iff.mp hk
  · intro i text htext
    apply h.texts
    exact Array.mem_of_getElem? (get?_eq_some_iff.mp htext)

/-! ## Texts that are set -/

/-- The constants of `q` are of the kinds of those of `p`, and those at other indices than `set` are the same. -/
structure Retexted (p q : ConstantPool) (set : List Index) : Prop where
  kinds : ∀ i, (q.get? i).map Constant.tag = (p.get? i).map Constant.tag
  others : ∀ i, i ∉ set → q.get? i = p.get? i

theorem Retexted.refl (p : ConstantPool) (set : List Index) : p.Retexted p set :=
  ⟨fun _ => rfl, fun _ _ => rfl⟩

theorem Retexted.trans {set set' : List Index} (h : p.Retexted q set) (h' : q.Retexted r set') :
    p.Retexted r (set ++ set') := by
  constructor
  · intro i
    rw [h'.kinds, h.kinds]
  · intro i hi
    rw [List.mem_append, not_or] at hi
    rw [h'.others i hi.2, h.others i hi.1]

theorem retexted_replaced (h : p.textBytes? i = some old) (s : String) : p.Retexted (p.replaced i s) [i] := by
  constructor
  · intro j
    rw [get?_replaced h]
    by_cases hj : j = i
    · rw [if_pos hj, hj, get?_of_textBytes? h]
      rfl
    · rw [if_neg hj]
  · intro j hj
    rw [get?_replaced h, if_neg (List.mem_singleton.not.mp hj)]

theorem retexted_of_setText (h : p.setText i s = .ok q) : p.Retexted q [i] := by
  obtain ⟨old, hold, rfl⟩ := eq_replaced_of_setText h
  exact retexted_replaced hold s

theorem get?_of_setText (h : p.setText i s = .ok q) : q.get? i = some (.utf8 (Text.Modified.encode s)) := by
  obtain ⟨old, hold, rfl⟩ := eq_replaced_of_setText h
  rw [get?_replaced hold, if_pos rfl]

/-- One text keeps the layout. -/
theorem WellFormed.attemptText (h : p.WellFormed) (call : Index × String) :
    (p.attemptText call).WellFormed ∧ (p.attemptText call).slots.size = p.slots.size ∧
      p.Retexted (p.attemptText call) [call.1] := by
  rw [ConstantPool.attemptText]
  split
  · next q hset =>
    have hfits := length_le_of_setText hset
    have hkept := retexted_of_setText hset
    obtain ⟨old, hold, rfl⟩ := eq_replaced_of_setText hset
    exact ⟨h.replaced hold hfits, Array.size_setIfInBounds, hkept⟩
  · exact ⟨h, rfl, .refl p _⟩

/-- Any number of texts keep the layout. -/
theorem WellFormed.attemptTexts (h : p.WellFormed) (calls : List (Index × String)) :
    (p.attemptTexts calls).WellFormed ∧ (p.attemptTexts calls).slots.size = p.slots.size ∧
      p.Retexted (p.attemptTexts calls) (calls.map Prod.fst) := by
  induction calls generalizing p with
  | nil => exact ⟨h, rfl, .refl p []⟩
  | cons call calls ih =>
    obtain ⟨hstep, hsize, hkept⟩ := h.attemptText call
    obtain ⟨hrun, hsizes, hrest⟩ := ih hstep
    exact ⟨hrun, hsizes.trans hsize, hkept.trans hrest⟩

theorem count_of_read {c c' : Cursor} (h : ConstantPool.read c = .ok (p, c')) :
    p.WellFormed ∧ p.slots.size = p.count.toNat ∧ ∃ rest, c.rest = Bytes.be16 p.count ++ rest := by
  obtain ⟨hp, htook⟩ := (reads c p c').mp h
  refine ⟨hp, (UInt16.toNat_ofNat_of_lt' hp.size_lt).symm, ?_⟩
  rw [htook.1, toBytes, List.append_assoc]
  exact ⟨_, rfl⟩

/-- A pool that is read has as many slots as the count before it, and constants in all of them but the first and
those after numbers of 64 bits. This stays so whatever texts are set. A text that is taken is fetched from then on
at its index; it takes the place of a text, and nothing else changes. -/
theorem laidOut_attemptTexts {c c' : Cursor} (h : ConstantPool.read c = .ok (p, c')) :
    ∃ n, (∃ rest, c.rest = Bytes.be16 n ++ rest) ∧ ∀ calls,
      (p.attemptTexts calls).LaidOut n ∧ p.Retexted (p.attemptTexts calls) (calls.map Prod.fst) ∧
      ∀ i s q, (p.attemptTexts calls).setText i s = .ok q →
        q.get? i = some (.utf8 (Text.Modified.encode s)) ∧ (p.attemptTexts calls).Retexted q [i] := by
  obtain ⟨hp, hsize, hcount⟩ := count_of_read h
  refine ⟨p.count, hcount, fun calls => ?_⟩
  obtain ⟨hrun, hsizes, hkept⟩ := hp.attemptTexts calls
  have hlaid := (wellFormed_iff_arranged.mp hrun).laidOut (hsizes.trans hsize)
  exact ⟨hlaid, hkept, fun i s q hset => ⟨get?_of_setText hset, retexted_of_setText hset⟩⟩

/-- A name, the class of this name, a number of 64 bits, and behind it a handle to a method. -/
def mixedPool : ConstantPool :=
  ⟨#[none, some (.utf8 [0x61, 0x2f, 0x42]), some (.classRef 1), some (.long 42), none, some (.methodHandle 6 2)]⟩

theorem laidOut_attemptTexts_mixedPool :
    ConstantPool.read ⟨mixedPool.toBytes, 8⟩ = .ok (mixedPool, ⟨[], 32⟩) ∧
    ∃ n, (∃ rest, mixedPool.toBytes = Bytes.be16 n ++ rest) ∧ ∀ calls,
      (mixedPool.attemptTexts calls).LaidOut n ∧
      mixedPool.Retexted (mixedPool.attemptTexts calls) (calls.map Prod.fst) ∧
      ∀ i s q, (mixedPool.attemptTexts calls).setText i s = .ok q →
        q.get? i = some (.utf8 (Text.Modified.encode s)) ∧ (mixedPool.attemptTexts calls).Retexted q [i] := by
  have hread : ConstantPool.read ⟨mixedPool.toBytes, 8⟩ = .ok (mixedPool, ⟨[], 32⟩) := by cbv
  exact ⟨hread, laidOut_attemptTexts hread⟩

end ConstantPool
end SourceLabel.ClassFile
