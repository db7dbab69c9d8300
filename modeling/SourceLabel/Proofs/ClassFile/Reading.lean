import SourceLabel.ClassFile.Reader
import SourceLabel.Proofs.Bytes

/-!
# What readers accept

A reader belongs to a writer: it yields a thing exactly if the bytes that are left begin with what the
writer makes of that thing, and it takes just these bytes off. Readers of larger things are put together
from those of their parts, so this is carried from the fields to whole class files.
-/
namespace SourceLabel.ClassFile

/-- The second cursor stands behind the bytes that the first one stands before. -/
def Cursor.Took (c : Cursor) (b : Bytes) (c' : Cursor) : Prop :=
  c.rest = b ++ c'.rest ∧ c'.offset = c.offset + b.length

@[simp] theorem Cursor.took_nil {c c' : Cursor} : c.Took [] c' ↔ c = c' := by
  obtain ⟨rest, offset⟩ := c
  obtain ⟨rest', offset'⟩ := c'
  simp only [Took, List.nil_append, List.length_nil, Nat.add_zero, mk.injEq]
  exact and_congr_right fun _ => eq_comm

@[simp] theorem Cursor.took_append {c c'' : Cursor} {a b : Bytes} :
    c.Took (a ++ b) c'' ↔ ∃ c', c.Took a c' ∧ c'.Took b c'' := by
  constructor
  · intro ⟨hr, ho⟩
    refine ⟨⟨b ++ c''.rest, c.offset + a.length⟩, ⟨?_, rfl⟩, rfl, ?_⟩
    · rw [hr, List.append_assoc]
    · rw [ho, List.length_append, Nat.add_assoc]
  · intro ⟨c', ⟨hr, ho⟩, hr', ho'⟩
    refine ⟨?_, ?_⟩
    · rw [hr, hr', List.append_assoc]
    · rw [ho', ho, List.length_append, Nat.add_assoc]

theorem Cursor.Took.unique {c c₁ c₂ : Cursor} {b : Bytes} (h₁ : c.Took b c₁) (h₂ : c.Took b c₂) :
    c₁ = c₂ := by
  obtain ⟨rest₁, offset₁⟩ := c₁
  obtain ⟨rest₂, offset₂⟩ := c₂
  have hr : rest₁ = rest₂ := List.append_cancel_left (h₁.1.symm.trans h₂.1)
  have ho : offset₁ = offset₂ := h₁.2.trans h₂.2.symm
  rw [hr, ho]

/-- The reader yields valid things only, and belongs to the writer. -/
def Reads (read : Reader α) (valid : α → Prop) (write : α → Bytes) : Prop :=
  ∀ c x c', read c = .ok (x, c') ↔ valid x ∧ c.Took (write x) c'

/-- Of all valid things only one is written at a place. -/
theorem Reads.unique {read : Reader α} {valid : α → Prop} {write : α → Bytes}
    (h : Reads read valid write) {c c₁ c₂ : Cursor} {x y : α} (hx : valid x) (hy : valid y)
    (hx' : c.Took (write x) c₁) (hy' : c.Took (write y) c₂) : x = y ∧ c₁ = c₂ := by
  have hr : read c = .ok (x, c₁) := (h _ _ _).mpr ⟨hx, hx'⟩
  rw [(h _ _ _).mpr ⟨hy, hy'⟩] at hr
  obtain ⟨rfl, rfl⟩ := Prod.mk.inj (Except.ok.inj hr)
  exact ⟨rfl, rfl⟩

namespace Reader

/-! ## One reader after another -/

theorem bind_eq_ok {r : Reader α} {k : α → Reader β} {c c'' : Cursor} {y : β} :
    (r >>= k) c = .ok (y, c'') ↔ ∃ x c', r c = .ok (x, c') ∧ k x c' = .ok (y, c'') := by
  have hb : (r >>= k) c = (r c).bind fun p => k p.1 p.2 := rfl
  rw [hb]
  rcases r c with e | ⟨x, c₁⟩
  · simp [Except.bind]
  · simp [Except.bind, and_assoc]

theorem bind_eq_error {r : Reader α} {k : α → Reader β} {c : Cursor} {e : ClassError} :
    (r >>= k) c = .error e ↔ r c = .error e ∨ ∃ x c', r c = .ok (x, c') ∧ k x c' = .error e := by
  have hb : (r >>= k) c = (r c).bind fun p => k p.1 p.2 := rfl
  rw [hb]
  rcases r c with e' | ⟨x, c'⟩
  · simp [Except.bind]
  · simp [Except.bind, and_assoc]

theorem bind_of_ok {r : Reader α} {k : α → Reader β} {c c' : Cursor} {x : α} (h : r c = .ok (x, c')) :
    (r >>= k) c = k x c' := by
  have hb : (r >>= k) c = (r c).bind fun p => k p.1 p.2 := rfl
  rw [hb, h]
  rfl

@[simp] theorem pure_eq_ok {x y : α} {c c' : Cursor} :
    (pure x : Reader α) c = .ok (y, c') ↔ x = y ∧ c = c' := by
  have hp : (pure x : Reader α) c = .ok (x, c) := rfl
  rw [hp, Except.ok.injEq, Prod.mk.injEq]

theorem offset_eq_ok {n : Nat} {c c' : Cursor} :
    offset c = .ok (n, c') ↔ c.offset = n ∧ c = c' := by
  rw [offset, Except.ok.injEq, Prod.mk.injEq]

theorem failAt_ne_ok {offset : Nat} {fault : ClassFault} {c : Cursor} {r : α × Cursor} :
    (failAt offset fault : Reader α) c ≠ .ok r := nofun

theorem truncated_ne_ok {what : String} {need : Nat} {c : Cursor} {r : α × Cursor} :
    truncated what need c ≠ .ok r := nofun

/-! ## Fields -/

theorem bytes_eq_ok {what : String} {n : Nat} {c c' : Cursor} {b : Bytes} :
    bytes what n c = .ok (b, c') ↔ b.length = n ∧ c.Took b c' := by
  obtain ⟨rest', offset'⟩ := c'
  unfold bytes
  split
  · next front rest hs =>
    obtain ⟨hn, hr⟩ := Bytes.takeExact?_eq_some.mp hs
    simp only [Except.ok.injEq, Prod.mk.injEq, Cursor.mk.injEq, Cursor.Took, hr]
    constructor
    · rintro ⟨rfl, rfl, rfl⟩
      exact ⟨hn, rfl, by rw [hn]⟩
    · intro ⟨hb, ht, ho⟩
      obtain ⟨rfl, rfl⟩ := List.append_inj ht (by rw [hn, hb])
      exact ⟨rfl, rfl, by rw [ho, hb]⟩
  · next hs =>
    refine ⟨fun h => absurd h truncated_ne_ok, ?_⟩
    rintro ⟨hb, hr, -⟩
    rw [hr, Bytes.takeExact?_append hb.symm] at hs
    exact nomatch hs

theorem u8_eq_ok {what : String} {c c' : Cursor} {x : UInt8} :
    u8 what c = .ok (x, c') ↔ c.Took [x] c' := by
  obtain ⟨rest, offset⟩ := c
  obtain ⟨rest', offset'⟩ := c'
  rcases rest with _ | ⟨a, rest⟩
  · simp [u8, truncated, Cursor.Took]
  · simp only [u8, Cursor.Took, Except.ok.injEq, Prod.mk.injEq, Cursor.mk.injEq, List.cons_append,
      List.nil_append, List.cons.injEq, List.length_singleton, and_assoc, eq_comm (a := offset')]

@[simp] theorem u16_eq_ok {what : String} {c c' : Cursor} {x : UInt16} :
    u16 what c = .ok (x, c') ↔ c.Took (Bytes.be16 x) c' := by
  obtain ⟨rest', offset'⟩ := c'
  unfold u16
  split
  · next a b rest hs =>
    simp only [Except.ok.injEq, Prod.mk.injEq, Cursor.mk.injEq, Cursor.Took, hs]
    constructor
    · rintro ⟨rfl, rfl, rfl⟩
      exact ⟨by rw [Bytes.be16_ofBE16]; rfl, rfl⟩
    · intro ⟨ht, ho⟩
      have ht : [a, b] ++ rest = _ ++ rest' := ht
      obtain ⟨hx, rfl⟩ := List.append_inj ht rfl
      exact ⟨Bytes.ofBE16_be16 hx.symm, rfl, ho.symm⟩
  · next hs =>
    refine ⟨fun h => absurd h truncated_ne_ok, ?_⟩
    rintro ⟨hr, -⟩
    exact absurd hr (hs _ _ _)

theorem u32_eq_ok {what : String} {c c' : Cursor} {x : UInt32} :
    u32 what c = .ok (x, c') ↔ c.Took (Bytes.be32 x) c' := by
  obtain ⟨rest', offset'⟩ := c'
  unfold u32
  split
  · next a b d e rest hs =>
    simp only [Except.ok.injEq, Prod.mk.injEq, Cursor.mk.injEq, Cursor.Took, hs]
    constructor
    · rintro ⟨rfl, rfl, rfl⟩
      exact ⟨by rw [Bytes.be32_ofBE32]; rfl, rfl⟩
    · intro ⟨ht, ho⟩
      have ht : [a, b, d, e] ++ rest = _ ++ rest' := ht
      obtain ⟨hx, rfl⟩ := List.append_inj ht rfl
      exact ⟨Bytes.be32_injective (by rw [Bytes.be32_ofBE32, hx]), rfl, ho.symm⟩
  · next hs =>
    refine ⟨fun h => absurd h truncated_ne_ok, ?_⟩
    rintro ⟨hr, -⟩
    exact absurd hr (hs _ _ _ _ _)

theorem u64_eq_ok {what : String} {c c' : Cursor} {x : UInt64} :
    u64 what c = .ok (x, c') ↔ c.Took (Bytes.be64 x) c' := by
  obtain ⟨rest', offset'⟩ := c'
  unfold u64
  split
  · next a b d e f g h i rest hs =>
    have hw : Bytes.be64 (Bytes.ofBE64 (Bytes.ofBE32 a b d e) (Bytes.ofBE32 f g h i)) =
        [a, b, d, e, f, g, h, i] := by
      rw [Bytes.be64_ofBE64, Bytes.be32_ofBE32, Bytes.be32_ofBE32]
      rfl
    simp only [Except.ok.injEq, Prod.mk.injEq, Cursor.mk.injEq, Cursor.Took, hs]
    constructor
    · rintro ⟨rfl, rfl, rfl⟩
      exact ⟨by rw [hw]; rfl, rfl⟩
    · intro ⟨ht, ho⟩
      have ht : [a, b, d, e, f, g, h, i] ++ rest = _ ++ rest' := ht
      obtain ⟨hx, rfl⟩ := List.append_inj ht rfl
      exact ⟨Bytes.be64_injective (by rw [hw, hx]), rfl, ho.symm⟩
  · next hs =>
    refine ⟨fun h => absurd h truncated_ne_ok, ?_⟩
    rintro ⟨hr, -⟩
    exact absurd hr (hs _ _ _ _ _ _ _ _ _)

/-! ## Lists -/

theorem timesFrom_succ (read : Reader α) (acc : List α) (n : Nat) :
    timesFrom read acc (n + 1) = read >>= fun x => timesFrom read (x :: acc) n := by
  funext c
  show timesFrom read acc (n + 1) c = (read c).bind fun p => timesFrom read (p.1 :: acc) n p.2
  dsimp only [timesFrom]
  cases read c <;> rfl

theorem timesFrom_eq_ok {read : Reader α} {valid : α → Prop} {write : α → Bytes}
    (h : Reads read valid write) {acc xs : List α} {n : Nat} {c c' : Cursor} :
    timesFrom read acc n c = .ok (xs, c') ↔
      ∃ ys, xs = acc.reverse ++ ys ∧ (ys.length = n ∧ ∀ y ∈ ys, valid y) ∧
        c.Took (ys.flatMap write) c' := by
  induction n generalizing acc c with
  | zero =>
    simp only [timesFrom, Except.ok.injEq, Prod.mk.injEq, List.length_eq_zero_iff]
    constructor
    · rintro ⟨rfl, rfl⟩
      exact ⟨[], (List.append_nil _).symm, ⟨rfl, nofun⟩, Cursor.took_nil.mpr rfl⟩
    · rintro ⟨ys, rfl, ⟨rfl, -⟩, ht⟩
      exact ⟨(List.append_nil _).symm, Cursor.took_nil.mp ht⟩
  | succ n ih =>
    unfold timesFrom
    constructor
    · intro hr
      split at hr
      · exact nomatch hr
      · next x c₁ hx =>
        obtain ⟨hv, ht⟩ := (h _ _ _).mp hx
        obtain ⟨ys, rfl, ⟨hl, hys⟩, ht'⟩ := ih.mp hr
        refine ⟨x :: ys, by simp, ⟨by simp [hl], ?_⟩, Cursor.took_append.mpr ⟨c₁, ht, ht'⟩⟩
        exact List.forall_mem_cons.mpr ⟨hv, hys⟩
    · rintro ⟨ys, rfl, ⟨hl, hys⟩, ht⟩
      obtain ⟨x, ys, rfl⟩ := List.exists_cons_of_length_eq_add_one hl
      obtain ⟨hv, hys⟩ := List.forall_mem_cons.mp hys
      obtain ⟨c₁, hx, ht'⟩ := Cursor.took_append.mp ht
      have hx : read c = .ok (x, c₁) := (h _ _ _).mpr ⟨hv, hx⟩
      simp only [hx]
      exact ih.mpr ⟨ys, by simp, ⟨Nat.succ.inj hl, hys⟩, ht'⟩

/-- A list is read thing by thing. -/
theorem times_reads {read : Reader α} {valid : α → Prop} {write : α → Bytes}
    (h : Reads read valid write) (n : Nat) :
    Reads (times n read) (fun xs => xs.length = n ∧ ∀ x ∈ xs, valid x) (·.flatMap write) := by
  intro c xs c'
  rw [times, timesFrom_eq_ok h]
  simp

end Reader

/-- A list with its length before it, in 16 bits. -/
def counted (write : α → Bytes) (xs : List α) : Bytes :=
  Bytes.be16 (UInt16.ofNat xs.length) ++ xs.flatMap write

theorem Reader.counted_reads {read : Reader α} {valid : α → Prop} {write : α → Bytes}
    (h : Reads read valid write) (what : String) :
    Reads (do let n ← u16 what; times n.toNat read)
      (fun xs => xs.length < 65536 ∧ ∀ x ∈ xs, valid x) (counted write) := by
  intro c xs c'
  simp only [bind_eq_ok, u16_eq_ok, times_reads h _ _ _ _, counted, Cursor.took_append]
  constructor
  · intro ⟨n, c₁, hn, ⟨hl, hv⟩, ht⟩
    have hlt : xs.length < 65536 := hl ▸ n.toNat_lt
    have hw : UInt16.ofNat xs.length = n := by rw [hl, UInt16.ofNat_toNat]
    exact ⟨⟨hlt, hv⟩, c₁, hw ▸ hn, ht⟩
  · intro ⟨⟨hlt, hv⟩, c₁, hn, ht⟩
    exact ⟨_, c₁, hn, ⟨(UInt16.toNat_ofNat_of_lt' hlt).symm, hv⟩, ht⟩

end SourceLabel.ClassFile
