import SourceLabel.Text.Modified

/-!
# Modified UTF-8 that was encoded

A unit can be written in one, two or three bytes; the encoder takes the shortest form. Whatever form each of
the units of a text has, the scan cuts the bytes into these units, and joining them gives the characters
back. So decoding undoes encoding, and no two texts are encoded alike.
-/
namespace SourceLabel.Text.Modified

/-! ## Forms -/

/-- The bytes are a form of the unit. Zero has none of a single byte. -/
inductive Form : Nat → Bytes → Prop
  | one {u : Nat} : 0 < u → u < 0x80 → Form u [UInt8.ofNat u]
  | two {u : Nat} : u < 0x800 → Form u [UInt8.ofNat (0xC0 + u / 64), UInt8.ofNat (0x80 + u % 64)]
  | three {u : Nat} : u < 0x10000 →
      Form u [UInt8.ofNat (0xE0 + u / 4096), UInt8.ofNat (0x80 + u / 64 % 64), UInt8.ofNat (0x80 + u % 64)]

/-- The bytes are forms of these units, one after another. -/
inductive Spells : List Nat → Bytes → Prop
  | nil : Spells [] []
  | cons {u : Nat} {us : List Nat} {form b : Bytes} : Form u form → Spells us b → Spells (u :: us) (form ++ b)

theorem form_encodeUnit {u : Nat} (hu : u < 65536) : Form u (encodeUnit u) := by
  unfold encodeUnit
  split
  · next h => exact .one h.1 h.2
  · split
    · next h => exact .two h
    · exact .three hu

theorem spells_encodeUnits {us : List Nat} (hu : ∀ u ∈ us, u < 65536) : Spells us (us.flatMap encodeUnit) := by
  induction us with
  | nil => exact .nil
  | cons u us ih =>
    rw [List.forall_mem_cons] at hu
    rw [List.flatMap_cons]
    exact .cons (form_encodeUnit hu.1) (ih hu.2)

def Item.ofUnit (u : Nat × Nat) : Item :=
  .unit u.1 u.2

/-! ## The scan -/

@[simp] theorem Scan.step_none (offset : Nat) (items : List Item) (b : UInt8) :
    Scan.step ⟨offset, .none, items⟩ b = Scan.first ⟨offset, .none, items⟩ b := by
  simp only [Scan.step, Scan.broken, ite_self]

theorem toNat_ofNat {n : Nat} (h : n < 256) : (UInt8.ofNat n).toNat = n :=
  UInt8.toNat_ofNat_of_lt' h

theorem Scan.first_ascii {offset u : Nat} {items : List Item} (h : 0 < u ∧ u < 0x80) :
    Scan.first ⟨offset, .none, items⟩ (UInt8.ofNat u) =
      ⟨offset + 1, .none, .unit offset u :: items⟩ := by
  have hu : (UInt8.ofNat u).toNat = u := toNat_ofNat (by omega)
  have hb : 0 < UInt8.ofNat u ∧ UInt8.ofNat u < 0x80 := by
    simp only [UInt8.lt_iff_toNat_lt, hu]
    exact h
  simp [Scan.first, hb, hu]

theorem Scan.first_lead {offset n : Nat} {items : List Item} (h : 0xC0 ≤ n ∧ n < 0xF0) :
    Scan.first ⟨offset, .none, items⟩ (UInt8.ofNat n) =
      ⟨offset + 1, .lead (UInt8.ofNat n), items⟩ := by
  have hu : (UInt8.ofNat n).toNat = n := toNat_ofNat (by omega)
  have hl : ¬ (0 < UInt8.ofNat n ∧ UInt8.ofNat n < 0x80) := by
    simp only [UInt8.lt_iff_toNat_lt, hu, not_and]
    intro _
    change ¬ n < 128
    omega
  have hb : 0xC0 ≤ UInt8.ofNat n ∧ UInt8.ofNat n < 0xF0 := by
    simp only [UInt8.le_iff_toNat_le, UInt8.lt_iff_toNat_lt, hu]
    exact h
  simp [Scan.first, hl, hb]

theorem isContinuation_ofNat {n : Nat} (h : 0x80 ≤ n ∧ n < 0xC0) :
    Scan.isContinuation (UInt8.ofNat n) = true := by
  have hu : (UInt8.ofNat n).toNat = n := toNat_ofNat (by omega)
  simp only [Scan.isContinuation, Bool.and_eq_true, decide_eq_true_eq, UInt8.le_iff_toNat_le,
    UInt8.lt_iff_toNat_lt, hu]
  exact h

theorem Scan.step_lead {offset n m : Nat} {items : List Item} (hn : 0xC0 ≤ n ∧ n < 0xE0)
    (hm : 0x80 ≤ m ∧ m < 0xC0) :
    Scan.step ⟨offset, .lead (UInt8.ofNat n), items⟩ (UInt8.ofNat m) =
      ⟨offset + 1, .none, .unit (offset - 1) (64 * (n - 0xC0) + (m - 0x80)) :: items⟩ := by
  have hn' : (UInt8.ofNat n).toNat = n := toNat_ofNat (by omega)
  have hm' : (UInt8.ofNat m).toNat = m := toNat_ofNat (by omega)
  have hl : UInt8.ofNat n < 0xE0 := by
    rw [UInt8.lt_iff_toNat_lt, hn']
    exact hn.2
  simp [Scan.step, isContinuation_ofNat hm, hl, hn', hm']

theorem Scan.step_lead_three {offset n m : Nat} {items : List Item} (hn : 0xE0 ≤ n ∧ n < 0xF0)
    (hm : 0x80 ≤ m ∧ m < 0xC0) :
    Scan.step ⟨offset, .lead (UInt8.ofNat n), items⟩ (UInt8.ofNat m) =
      ⟨offset + 1, .leadMid (UInt8.ofNat n) (UInt8.ofNat m), items⟩ := by
  have hn' : (UInt8.ofNat n).toNat = n := toNat_ofNat (by omega)
  have hl : ¬ UInt8.ofNat n < 0xE0 := by
    rw [UInt8.lt_iff_toNat_lt, hn']
    exact Nat.not_lt.mpr hn.1
  simp [Scan.step, isContinuation_ofNat hm, hl]

theorem Scan.step_leadMid {offset n m k : Nat} {items : List Item} (hn : n < 0xF0)
    (hm : m < 0xC0) (hk : 0x80 ≤ k ∧ k < 0xC0) :
    Scan.step ⟨offset, .leadMid (UInt8.ofNat n) (UInt8.ofNat m), items⟩ (UInt8.ofNat k) =
      ⟨offset + 1, .none,
        .unit (offset - 2) (4096 * (n - 0xE0) + 64 * (m - 0x80) + (k - 0x80)) :: items⟩ := by
  have hn' : (UInt8.ofNat n).toNat = n := toNat_ofNat (by omega)
  have hm' : (UInt8.ofNat m).toNat = m := toNat_ofNat (by omega)
  have hk' : (UInt8.ofNat k).toNat = k := toNat_ofNat (by omega)
  simp [Scan.step, isContinuation_ofNat hk, hn', hm', hk']

theorem Form.scan {u : Nat} {form : Bytes} (h : Form u form) (offset : Nat) (items : List Item) :
    form.foldl Scan.step ⟨offset, .none, items⟩ = ⟨offset + form.length, .none, .unit offset u :: items⟩ := by
  cases h with
  | one hpos hlt =>
    rw [List.foldl_cons, List.foldl_nil, Scan.step_none, Scan.first_ascii ⟨hpos, hlt⟩]
    rfl
  | two hlt =>
    rw [List.foldl_cons, List.foldl_cons, List.foldl_nil, Scan.step_none,
      Scan.first_lead (by omega), Scan.step_lead (by omega) (by omega)]
    have hv : 64 * (0xC0 + u / 64 - 0xC0) + (0x80 + u % 64 - 0x80) = u := by omega
    rw [hv]
    rfl
  | three hlt =>
    rw [List.foldl_cons, List.foldl_cons, List.foldl_cons, List.foldl_nil,
      Scan.step_none, Scan.first_lead (by omega),
      Scan.step_lead_three (by omega) (by omega),
      Scan.step_leadMid (by omega) (by omega) (by omega)]
    have hv : 4096 * (0xE0 + u / 4096 - 0xE0) + 64 * (0x80 + u / 64 % 64 - 0x80) +
        (0x80 + u % 64 - 0x80) = u := by omega
    rw [hv]
    rfl

theorem Spells.foldl_step {us : List Nat} {b : Bytes} (h : Spells us b) (offset : Nat) (items : List Item) :
    ∃ ps : List (Nat × Nat), ps.map Prod.snd = us ∧ b.foldl Scan.step ⟨offset, .none, items⟩ =
      ⟨offset + b.length, .none, (ps.map Item.ofUnit).reverse ++ items⟩ := by
  induction h generalizing offset items with
  | nil => exact ⟨[], rfl, rfl⟩
  | @cons u us form b hform _ ih =>
    obtain ⟨ps, hps, hscan⟩ := ih (offset + form.length) (.unit offset u :: items)
    refine ⟨(offset, u) :: ps, congrArg (u :: ·) hps, ?_⟩
    rw [List.foldl_append, hform.scan, hscan, List.length_append, Nat.add_assoc]
    simp [Item.ofUnit]

theorem Spells.scan {us : List Nat} {b : Bytes} (h : Spells us b) :
    ∃ ps : List (Nat × Nat), ps.map Prod.snd = us ∧ scan b = ps.map Item.ofUnit := by
  obtain ⟨ps, hps, hscan⟩ := h.foldl_step 0 []
  have hz : ({} : Scan) = ⟨0, .none, []⟩ := rfl
  refine ⟨ps, hps, ?_⟩
  rw [Modified.scan, hz, hscan, Scan.broken, List.append_nil, List.reverse_reverse]

/-! ## The units of a text -/

theorem toNat_lt (c : Char) : c.toNat < 0x110000 := by
  rcases c.valid with h | ⟨-, h⟩
  · exact Nat.lt_trans h (by decide)
  · exact h

theorem units_lt (c : Char) : ∀ u ∈ units c, u < 65536 := by
  have hc := toNat_lt c
  intro u hu
  simp only [units] at hu
  split at hu
  · simp only [List.mem_singleton] at hu
    omega
  · simp only [List.mem_cons, List.not_mem_nil, or_false] at hu
    omega

theorem units_lt_of_mem (s : String) : ∀ u ∈ s.toList.flatMap units, u < 65536 := by
  intro u hu
  obtain ⟨c, -, hc⟩ := List.mem_flatMap.mp hu
  exact units_lt c u hc

theorem spells_encode (s : String) : Spells (s.toList.flatMap units) (encode s) :=
  spells_encodeUnits (units_lt_of_mem s)

/-! ## Joining -/

theorem isHigh_iff {u : Nat} : isHigh u = true ↔ 0xD800 ≤ u ∧ u < 0xDC00 := by
  simp only [isHigh, Bool.and_eq_true, decide_eq_true_eq]

theorem isLow_iff {u : Nat} : isLow u = true ↔ 0xDC00 ≤ u ∧ u < 0xE000 := by
  simp only [isLow, Bool.and_eq_true, decide_eq_true_eq]

theorem not_surrogate (c : Char) : isHigh c.toNat = false ∧ isLow c.toNat = false := by
  have hc := c.valid
  change c.toNat < 0xD800 ∨ 0xDFFF < c.toNat ∧ c.toNat < 0x110000 at hc
  simp only [isHigh, isLow, Bool.and_eq_false_iff, decide_eq_false_iff_not]
  omega

theorem join_pair {c : Char} {high low : Nat × Nat} (hh : isHigh high.2 = true) (hl : isLow low.2 = true)
    (hv : 0x10000 + 0x400 * (high.2 - 0xD800) + (low.2 - 0xDC00) = c.toNat) (glyphs : List Glyph) :
    [high, low].foldl Join.step ⟨none, glyphs⟩ = ⟨none, .char c :: glyphs⟩ := by
  simp only [List.foldl_cons, List.foldl_nil, Join.step, Join.first, hh, hl, if_true]
  rw [hv, Char.ofNat_toNat]

theorem join_units (c : Char) {ps : List (Nat × Nat)} (hps : ps.map Prod.snd = units c) (glyphs : List Glyph) :
    ps.foldl Join.step ⟨none, glyphs⟩ = ⟨none, .char c :: glyphs⟩ := by
  unfold units at hps
  dsimp only at hps
  split at hps
  · next h =>
    obtain ⟨p, rfl, hp⟩ := List.map_eq_singleton_iff.mp hps
    obtain ⟨hh, hl⟩ := not_surrogate c
    simp [Join.step, Join.first, hp, hh, hl]
  · next h =>
    obtain ⟨high, rest, rfl, hhigh, hrest⟩ := List.map_eq_cons_iff.mp hps
    obtain ⟨low, rfl, hlow⟩ := List.map_eq_singleton_iff.mp hrest
    have hc := toNat_lt c
    have hh : isHigh high.2 = true := isHigh_iff.mpr (by omega)
    have hl : isLow low.2 = true := isLow_iff.mpr (by omega)
    have hv : 0x10000 + 0x400 * (high.2 - 0xD800) + (low.2 - 0xDC00) = c.toNat := by omega
    exact join_pair hh hl hv glyphs

theorem join_chars (cs : List Char) {ps : List (Nat × Nat)} (hps : ps.map Prod.snd = cs.flatMap units)
    (glyphs : List Glyph) :
    ps.foldl Join.step ⟨none, glyphs⟩ = ⟨none, (cs.map Glyph.char).reverse ++ glyphs⟩ := by
  induction cs generalizing ps glyphs with
  | nil =>
    obtain rfl : ps = [] := List.map_eq_nil_iff.mp hps
    rfl
  | cons c cs ih =>
    rw [List.flatMap_cons] at hps
    obtain ⟨front, back, rfl, hfront, hback⟩ := List.map_eq_append_iff.mp hps
    rw [List.foldl_append, join_units c hfront, ih hback]
    simp

theorem assemble_units {cs : List Char} {ps : List (Nat × Nat)} (hps : ps.map Prod.snd = cs.flatMap units) :
    assemble ps = cs.map Glyph.char := by
  have hz : ({} : Join) = ⟨none, []⟩ := rfl
  rw [assemble, hz, join_chars cs hps]
  simp [Join.finish]

/-! ## Decoding -/

theorem strictUnits_go_ofUnit (us acc : List (Nat × Nat)) :
    strictUnits.go acc (us.map Item.ofUnit) = .ok (acc.reverse ++ us) := by
  induction us generalizing acc with
  | nil => simp [strictUnits.go]
  | cons u us ih => simp [strictUnits.go, Item.ofUnit, ih]

theorem strictChars_go_char (cs acc : List Char) :
    strictChars.go acc (cs.map Glyph.char) = .ok (acc.reverse ++ cs) := by
  induction cs generalizing acc with
  | nil => simp [strictChars.go]
  | cons c cs ih => simp [strictChars.go, ih]

theorem decode_of_spells {s : String} {b : Bytes} (h : Spells (s.toList.flatMap units) b) : decode b = .ok s := by
  obtain ⟨ps, hps, hscan⟩ := h.scan
  simp only [decode, hscan, strictUnits, strictUnits_go_ofUnit, List.reverse_nil, List.nil_append, bind,
    Except.bind, assemble_units hps, strictChars, strictChars_go_char, pure, Except.pure, String.ofList_toList]

theorem decode_encode (s : String) : decode (encode s) = .ok s :=
  decode_of_spells (spells_encode s)

theorem encode_injective {s t : String} (h : encode s = encode t) : s = t := by
  have hd := decode_encode s
  rw [h, decode_encode t] at hd
  exact (Except.ok.inj hd).symm

theorem eq_of_strictUnits_go {items : List Item} {acc us : List (Nat × Nat)}
    (h : strictUnits.go acc items = .ok us) : us = acc.reverse ++ items.map Item.lossyUnit := by
  induction items generalizing acc with
  | nil => simpa [strictUnits.go] using (Except.ok.inj h).symm
  | cons item items ih =>
    cases item with
    | unit start u => simpa [Item.lossyUnit] using ih h
    | defect start cause => exact nomatch h

theorem eq_of_strictChars_go {glyphs : List Glyph} {acc cs : List Char} (h : strictChars.go acc glyphs = .ok cs) :
    cs = acc.reverse ++ glyphs.map Glyph.lossyChar := by
  induction glyphs generalizing acc with
  | nil => simpa [strictChars.go] using (Except.ok.inj h).symm
  | cons glyph glyphs ih =>
    cases glyph with
    | char c => simpa [Glyph.lossyChar] using ih h
    | lone start => exact nomatch h

theorem decodeLossy_of_decode {b : Bytes} {s : String} (h : decode b = .ok s) : decodeLossy b = s := by
  unfold decode at h
  cases hu : strictUnits (scan b) with
  | error e => simp [hu, bind, Except.bind] at h
  | ok us =>
    cases hc : strictChars (assemble us) with
    | error e => simp [hu, hc, bind, Except.bind] at h
    | ok cs =>
      simp only [hu, hc, bind, Except.bind] at h
      have hus : us = (scan b).map Item.lossyUnit := eq_of_strictUnits_go hu
      have hcs : cs = (assemble us).map Glyph.lossyChar := eq_of_strictChars_go hc
      rw [decodeLossy, ← hus, ← hcs]
      exact Except.ok.inj h

end SourceLabel.Text.Modified
