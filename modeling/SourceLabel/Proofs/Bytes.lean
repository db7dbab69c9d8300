import SourceLabel.Bytes

/-!
# Fixed-width fields read back

Each reader undoes its writer, whatever follows the field, and a field that was read is written with the
bytes that it was read from.
-/
namespace SourceLabel.Bytes

theorem toNat_ofNat {n : Nat} : (UInt8.ofNat n).toNat = n % 256 :=
  UInt8.toNat_ofNat'

theorem ofNat_eq {a : UInt8} {n : Nat} (h : n % 256 = a.toNat) : UInt8.ofNat n = a := by
  apply UInt8.toNat_inj.mp
  rw [toNat_ofNat, h]

@[simp] theorem length_be16 (n : UInt16) : (be16 n).length = 2 := rfl

/-! ## Low byte first -/

@[simp] theorem take16?_le16 (n : UInt16) (rest : Bytes) : take16? (le16 n ++ rest) = some (n, rest) := by
  have hn := n.toNat_lt
  have hv : n.toNat % 256 + 256 * (n.toNat / 256 % 256) = n.toNat := by omega
  simp only [le16, List.cons_append, List.nil_append, take16?, toNat_ofNat, hv, UInt16.ofNat_toNat]

@[simp] theorem take32?_le32 (n : UInt32) (rest : Bytes) : take32? (le32 n ++ rest) = some (n, rest) := by
  have hn := n.toNat_lt
  have hv : n.toNat % 256 + 256 * (n.toNat / 256 % 256) + 65536 * (n.toNat / 65536 % 256) +
      16777216 * (n.toNat / 16777216 % 256) = n.toNat := by omega
  simp only [le32, List.cons_append, List.nil_append, take32?, toNat_ofNat, hv, UInt32.ofNat_toNat]

theorem bind_take16?_le16 {α : Type} {n : UInt16} {rest : Bytes} {k : UInt16 × Bytes → Option α} {r : α}
    (h : k (n, rest) = some r) : (take16? (le16 n ++ rest) >>= k) = some r := by
  rw [take16?_le16]
  exact h

theorem bind_take32?_le32 {α : Type} {n : UInt32} {rest : Bytes} {k : UInt32 × Bytes → Option α} {r : α}
    (h : k (n, rest) = some r) : (take32? (le32 n ++ rest) >>= k) = some r := by
  rw [take32?_le32]
  exact h

theorem take16?_eq_some {b rest : Bytes} {n : UInt16} : take16? b = some (n, rest) ↔ b = le16 n ++ rest := by
  constructor
  · intro h
    unfold take16? at h
    split at h
    · next x y rest' =>
      obtain ⟨rfl, rfl⟩ := Prod.mk.inj (Option.some.inj h)
      have hx := x.toNat_lt
      have hy := y.toNat_lt
      have hv : (UInt16.ofNat (x.toNat + 256 * y.toNat)).toNat = x.toNat + 256 * y.toNat := by
        rw [UInt16.toNat_ofNat']
        omega
      have h₀ : UInt8.ofNat (x.toNat + 256 * y.toNat) = x := ofNat_eq (by omega)
      have h₁ : UInt8.ofNat ((x.toNat + 256 * y.toNat) / 256) = y := ofNat_eq (by omega)
      rw [le16, hv, h₀, h₁]
      rfl
    · exact nomatch h
  · rintro rfl
    exact take16?_le16 n rest

theorem take32?_eq_some {b rest : Bytes} {n : UInt32} : take32? b = some (n, rest) ↔ b = le32 n ++ rest := by
  constructor
  · intro h
    unfold take32? at h
    split at h
    · next x y z u rest' =>
      obtain ⟨rfl, rfl⟩ := Prod.mk.inj (Option.some.inj h)
      have hx := x.toNat_lt
      have hy := y.toNat_lt
      have hz := z.toNat_lt
      have hu := u.toNat_lt
      generalize hw : x.toNat + 256 * y.toNat + 65536 * z.toNat + 16777216 * u.toNat = w
      have hv : (UInt32.ofNat w).toNat = w := by
        rw [UInt32.toNat_ofNat']
        omega
      have h₀ : UInt8.ofNat w = x := ofNat_eq (by omega)
      have h₁ : UInt8.ofNat (w / 256) = y := ofNat_eq (by omega)
      have h₂ : UInt8.ofNat (w / 65536) = z := ofNat_eq (by omega)
      have h₃ : UInt8.ofNat (w / 16777216) = u := ofNat_eq (by omega)
      rw [le32, hv, h₀, h₁, h₂, h₃]
      rfl
    · exact nomatch h
  · rintro rfl
    exact take32?_le32 n rest

theorem bind_take16?_eq_some {α : Type} {b : Bytes} {k : UInt16 × Bytes → Option α} {r : α} :
    (take16? b >>= k) = some r ↔ ∃ n rest, b = le16 n ++ rest ∧ k (n, rest) = some r := by
  simp only [Option.bind_eq_bind, Option.bind_eq_some_iff, Prod.exists, take16?_eq_some]

theorem bind_take32?_eq_some {α : Type} {b : Bytes} {k : UInt32 × Bytes → Option α} {r : α} :
    (take32? b >>= k) = some r ↔ ∃ n rest, b = le32 n ++ rest ∧ k (n, rest) = some r := by
  simp only [Option.bind_eq_bind, Option.bind_eq_some_iff, Prod.exists, take32?_eq_some]

theorem isSome_bind_take16? {α : Type} {b : Bytes} {n : Nat} {k : UInt16 × Bytes → Option α} (h : n ≤ b.length)
    (hn : 2 ≤ n) (hk : ∀ m rest, n - 2 ≤ rest.length → (k (m, rest)).isSome) : (take16? b >>= k).isSome := by
  rcases b with _ | ⟨_, _ | ⟨_, rest⟩⟩
  case cons.cons => exact hk _ rest (Nat.sub_le_of_le_add h)
  all_goals
    simp only [List.length_cons, List.length_nil] at h
    omega

theorem isSome_bind_take32? {α : Type} {b : Bytes} {n : Nat} {k : UInt32 × Bytes → Option α} (h : n ≤ b.length)
    (hn : 4 ≤ n) (hk : ∀ m rest, n - 4 ≤ rest.length → (k (m, rest)).isSome) : (take32? b >>= k).isSome := by
  rcases b with _ | ⟨_, _ | ⟨_, _ | ⟨_, _ | ⟨_, rest⟩⟩⟩⟩
  case cons.cons.cons.cons => exact hk _ rest (Nat.sub_le_of_le_add h)
  all_goals
    simp only [List.length_cons, List.length_nil] at h
    omega

/-! ## High byte first -/

@[simp] theorem be16_ofBE16 (a b : UInt8) : be16 (ofBE16 a b) = [a, b] := by
  have ha := a.toNat_lt
  have hb := b.toNat_lt
  have hv : (ofBE16 a b).toNat = 256 * a.toNat + b.toNat := by
    rw [ofBE16, UInt16.toNat_ofNat']
    omega
  have h₁ : UInt8.ofNat ((ofBE16 a b).toNat / 256) = a := ofNat_eq (by omega)
  have h₂ : UInt8.ofNat (ofBE16 a b).toNat = b := ofNat_eq (by omega)
  rw [be16, h₁, h₂]

@[simp] theorem be32_ofBE32 (a b c d : UInt8) : be32 (ofBE32 a b c d) = [a, b, c, d] := by
  have ha := a.toNat_lt
  have hb := b.toNat_lt
  have hc := c.toNat_lt
  have hd := d.toNat_lt
  have hv : (ofBE32 a b c d).toNat =
      16777216 * a.toNat + 65536 * b.toNat + 256 * c.toNat + d.toNat := by
    rw [ofBE32, UInt32.toNat_ofNat']
    omega
  have h₁ : UInt8.ofNat ((ofBE32 a b c d).toNat / 16777216) = a := ofNat_eq (by omega)
  have h₂ : UInt8.ofNat ((ofBE32 a b c d).toNat / 65536) = b := ofNat_eq (by omega)
  have h₃ : UInt8.ofNat ((ofBE32 a b c d).toNat / 256) = c := ofNat_eq (by omega)
  have h₄ : UInt8.ofNat (ofBE32 a b c d).toNat = d := ofNat_eq (by omega)
  rw [be32, h₁, h₂, h₃, h₄]

theorem be64_ofBE64 (hi lo : UInt32) : be64 (ofBE64 hi lo) = be32 hi ++ be32 lo := by
  have hh := hi.toNat_lt
  have hl := lo.toNat_lt
  have hv : (ofBE64 hi lo).toNat = 4294967296 * hi.toNat + lo.toNat := by
    rw [ofBE64, UInt64.toNat_ofNat']
    omega
  have h₁ : UInt32.ofNat ((ofBE64 hi lo).toNat / 4294967296) = hi := by
    apply UInt32.toNat_inj.mp
    rw [hv, UInt32.toNat_ofNat']
    omega
  have h₂ : UInt32.ofNat (ofBE64 hi lo).toNat = lo := by
    apply UInt32.toNat_inj.mp
    rw [hv, UInt32.toNat_ofNat']
    omega
  rw [be64, h₁, h₂]

theorem be16_injective {m n : UInt16} (h : be16 m = be16 n) : m = n := by
  have hm := m.toNat_lt
  have hn := n.toNat_lt
  simp only [be16, List.cons.injEq, and_true] at h
  have h₁ := congrArg UInt8.toNat h.1
  have h₂ := congrArg UInt8.toNat h.2
  simp only [toNat_ofNat] at h₁ h₂
  apply UInt16.toNat_inj.mp
  omega

theorem be32_injective {m n : UInt32} (h : be32 m = be32 n) : m = n := by
  have hm := m.toNat_lt
  have hn := n.toNat_lt
  simp only [be32, List.cons.injEq, and_true] at h
  have h₁ := congrArg UInt8.toNat h.1
  have h₂ := congrArg UInt8.toNat h.2.1
  have h₃ := congrArg UInt8.toNat h.2.2.1
  have h₄ := congrArg UInt8.toNat h.2.2.2
  simp only [toNat_ofNat] at h₁ h₂ h₃ h₄
  apply UInt32.toNat_inj.mp
  omega

theorem be64_injective {m n : UInt64} (h : be64 m = be64 n) : m = n := by
  have hm := m.toNat_lt
  have hn := n.toNat_lt
  obtain ⟨hh, hl⟩ := List.append_inj h rfl
  have h₁ := congrArg UInt32.toNat (be32_injective hh)
  have h₂ := congrArg UInt32.toNat (be32_injective hl)
  simp only [UInt32.toNat_ofNat'] at h₁ h₂
  apply UInt64.toNat_inj.mp
  omega

theorem ofBE16_be16 {n : UInt16} {a b : UInt8} (h : be16 n = [a, b]) : ofBE16 a b = n :=
  be16_injective (by rw [be16_ofBE16, h])

/-! ## Cutting -/

theorem takeExact?_append {front : Bytes} {n : Nat} (h : n = front.length) (rest : Bytes) :
    takeExact? n (front ++ rest) = some (front, rest) := by
  subst h
  simp [takeExact?_eq]

theorem takeExact?_eq_some {n : Nat} {b front rest : Bytes} :
    takeExact? n b = some (front, rest) ↔ front.length = n ∧ b = front ++ rest := by
  constructor
  · intro h
    rw [takeExact?_eq] at h
    split at h
    · next hn =>
      simp only [Option.some.injEq, Prod.mk.injEq] at h
      obtain ⟨rfl, rfl⟩ := h
      exact ⟨List.length_take_of_le hn, (List.take_append_drop n b).symm⟩
    · exact nomatch h
  · rintro ⟨hn, rfl⟩
    exact takeExact?_append hn.symm rest

end SourceLabel.Bytes
