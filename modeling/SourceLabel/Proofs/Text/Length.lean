import SourceLabel.Proofs.Text.Forms

/-!
# How long a text gets

Encoding takes the shortest form of each unit, so it never writes more bytes than a text was decoded from. This
is different for a text that was decoded with replacements. A surrogate that stands alone had three bytes, as
its replacement has, but a byte that belongs to no unit gets three bytes instead of one.
-/
namespace SourceLabel.Text.Modified

variable {b form : Bytes} {i u : Nat} {s : String}

/-! ## Units -/

theorem length_encodeUnit (u : Nat) :
    (encodeUnit u).length = if 0 < u ∧ u < 0x80 then 1 else if u < 0x800 then 2 else 3 := by
  unfold encodeUnit
  split
  · rfl
  · split
    · rfl
    · rfl

theorem Form.length_encodeUnit_le (h : Form u form) : (encodeUnit u).length ≤ form.length := by
  rw [length_encodeUnit]
  cases h with
  | one hpos hlt => rw [if_pos ⟨hpos, hlt⟩, List.length_singleton]
  | two hlt =>
    rw [if_pos hlt, List.length_cons, List.length_singleton]
    split
    · decide
    · decide
  | three hlt =>
    rw [List.length_cons, List.length_cons, List.length_singleton]
    split
    · decide
    · split
      · decide
      · decide

def Item.isStray : Item → Bool
  | .unit .. => false
  | .defect .. => true

/-- How many bytes belong to no unit. -/
def strayBytes (b : Bytes) : Nat :=
  (scan b).countP Item.isStray

theorem strayBytes_of_decode (h : decode b = .ok s) : strayBytes b = 0 := by
  obtain ⟨ps, -, hscan⟩ := (spells_of_decode h).scan
  rw [strayBytes, hscan, List.countP_map]
  exact List.countP_eq_zero.mpr fun p _ => Bool.false_ne_true

/-- Units take no more bytes than they were cut from, and two more for each byte that is replaced. -/
theorem Cut.length_encodeUnits_le {items : List Item} (h : Cut b i items) :
    (((items.map Item.lossyUnit).map Prod.snd).flatMap encodeUnit).length ≤
      b.length - i + 2 * items.countP Item.isStray := by
  induction h with
  | done => exact Nat.zero_le _
  | @unit i u n a items hget hunit _ ih =>
    obtain ⟨form, hform, hdrop⟩ := form_of_unitAt hget hunit
    have hlength := congrArg List.length hdrop
    have hle := hform.length_encodeUnit_le
    rw [List.length_append, List.length_drop, List.length_drop] at hlength
    rw [List.map_cons, List.map_cons, List.flatMap_cons, List.length_append, List.countP_cons]
    change (encodeUnit u).length + _ ≤ _ + 2 * (_ + 0)
    omega
  | @defect i cause n a items hget _ _ ih =>
    have hi := (List.getElem?_eq_some_iff.mp hget).1
    rw [List.map_cons, List.map_cons, List.flatMap_cons, List.length_append, List.countP_cons]
    change 3 + _ ≤ _ + 2 * (_ + 1)
    omega

/-! ## Texts -/

@[simp] theorem encode_append (s t : String) : encode (s ++ t) = encode s ++ encode t := by
  simp only [encode, String.toList_append, List.flatMap_append]

theorem length_encode_le_of_sublist {t : String} (h : s.toList.Sublist t.toList) :
    (encode s).length ≤ (encode t).length :=
  ((h.flatMap units).flatMap encodeUnit).length_le

/-- Joining keeps the number of bytes, also where a surrogate is replaced. -/
theorem Joins.length_encodeUnits {us : List (Nat × Nat)} {k : Nat} {glyphs : List Glyph} (h : Joins us k glyphs)
    (hlt : ∀ p ∈ us, p.2 < 0x10000) :
    (((glyphs.map Glyph.lossyChar).flatMap units).flatMap encodeUnit).length =
      (((us.drop k).map Prod.snd).flatMap encodeUnit).length := by
  induction h with
  | done hle => rw [List.drop_eq_nil_iff.mpr hle]; rfl
  | @glyph k start u n g glyphs hget hglyph _ ih =>
    rw [List.map_cons, List.flatMap_cons, List.flatMap_append, List.length_append, ih]
    rcases glyphAt_cases hget (hlt _ (List.mem_of_getElem? hget)) hglyph with ⟨rfl, hle, hdrop⟩ | ⟨c, rfl, hdrop⟩
    · have hone : ¬ (0 < u ∧ u < 0x80) := by omega
      have htwo : ¬ u < 0x800 := by omega
      rw [hdrop, List.map_cons, List.flatMap_cons, List.length_append, length_encodeUnit, if_neg hone, if_neg htwo]
      rfl
    · rw [hdrop, List.flatMap_append, List.length_append]
      rfl

/-- A text that was decoded with replacements is not written with more bytes than it was decoded from and two
for each byte that belonged to no unit. -/
theorem length_encode_decodeLossy_le (b : Bytes) :
    (encode (decodeLossy b)).length ≤ b.length + 2 * strayBytes b := by
  have hcut := cut_scan b
  have hjoins := (joins_assemble ((scan b).map Item.lossyUnit)).length_encodeUnits hcut.unit_lt
  rw [encode, decodeLossy, String.toList_ofList, hjoins]
  exact hcut.length_encodeUnits_le

theorem length_encode_le_of_decode (h : decode b = .ok s) : (encode s).length ≤ b.length := by
  have hle := length_encode_decodeLossy_le b
  rwa [decodeLossy_of_decode h, strayBytes_of_decode h] at hle

end SourceLabel.Text.Modified
