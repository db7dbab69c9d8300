import SourceLabel.Proofs.Bytes
import SourceLabel.Proofs.Text.LookAhead

/-!
# The forms of a text

Decoding takes each unit in any of its forms. So the bytes that are decoded into a text are all those that
spell its units, and only the bytes in which no form is too long are the ones that encoding gives. Two bytes
that follow each other show that a form is too long.

No form has a zero byte, so there is none in what encoding writes.
-/
namespace SourceLabel.Text.Modified

variable {b form rest : Bytes} {i u n : Nat} {a : UInt8} {us : List Nat} {s : String}

/-! ## Units that were read -/

theorem isContinuation_bounds {c : UInt8} (h : Scan.isContinuation c = true) : 0x80 ≤ c.toNat ∧ c.toNat < 0xC0 := by
  simpa only [Scan.isContinuation, Bool.and_eq_true, decide_eq_true_eq, UInt8.le_iff_toNat_le,
    UInt8.lt_iff_toNat_lt, UInt8.reduceToNat] using h

theorem form_two {a c : UInt8} (ha : 0xC0 ≤ a.toNat ∧ a.toNat < 0xE0) (hc : 0x80 ≤ c.toNat ∧ c.toNat < 0xC0) :
    Form (64 * (a.toNat - 0xC0) + (c.toNat - 0x80)) [a, c] := by
  generalize hu : 64 * (a.toNat - 0xC0) + (c.toNat - 0x80) = u
  have h₁ : UInt8.ofNat (0xC0 + u / 64) = a := Bytes.ofNat_eq (by omega)
  have h₂ : UInt8.ofNat (0x80 + u % 64) = c := Bytes.ofNat_eq (by omega)
  have hform := Form.two (by omega : u < 0x800)
  rwa [h₁, h₂] at hform

theorem form_three {a c d : UInt8} (ha : 0xE0 ≤ a.toNat ∧ a.toNat < 0xF0) (hc : 0x80 ≤ c.toNat ∧ c.toNat < 0xC0)
    (hd : 0x80 ≤ d.toNat ∧ d.toNat < 0xC0) :
    Form (4096 * (a.toNat - 0xE0) + 64 * (c.toNat - 0x80) + (d.toNat - 0x80)) [a, c, d] := by
  generalize hu : 4096 * (a.toNat - 0xE0) + 64 * (c.toNat - 0x80) + (d.toNat - 0x80) = u
  have h₁ : UInt8.ofNat (0xE0 + u / 4096) = a := Bytes.ofNat_eq (by omega)
  have h₂ : UInt8.ofNat (0x80 + u / 64 % 64) = c := Bytes.ofNat_eq (by omega)
  have h₃ : UInt8.ofNat (0x80 + u % 64) = d := Bytes.ofNat_eq (by omega)
  have hform := Form.three (by omega : u < 0x10000)
  rwa [h₁, h₂, h₃] at hform

theorem drop_of_getElem? {α : Type} {xs : List α} {i : Nat} {x : α} (h : xs[i]? = some x) :
    xs.drop i = x :: xs.drop (i + 1) := by
  rw [List.drop_eq_getElem?_toList_append, h, Option.toList_some, List.singleton_append]

theorem drop_of_continuationAt (h : continuationAt b i = .ok n) :
    ∃ c : UInt8, b.drop i = c :: b.drop (i + 1) ∧ (0x80 ≤ c.toNat ∧ c.toNat < 0xC0) ∧ c.toNat - 0x80 = n := by
  rcases continuation_or_break b i with ⟨c, -, hdrop, hc, hat⟩ | ⟨-, hat⟩
  · exact ⟨c, hdrop, isContinuation_bounds hc, Except.ok.inj (hat.symm.trans h)⟩
  · exact nomatch h.symm.trans hat

theorem form_of_unitAt (hget : b[i]? = some a) (hunit : unitAt b i a = (.ok u, n)) :
    ∃ form, Form u form ∧ b.drop i = form ++ b.drop (i + n) := by
  have hdrop := drop_of_getElem? hget
  unfold unitAt at hunit
  simp only [UInt8.lt_iff_toNat_lt, UInt8.le_iff_toNat_le, UInt8.reduceToNat] at hunit
  split at hunit
  · next hone =>
    obtain ⟨hu, rfl⟩ := Prod.mk.inj hunit
    obtain rfl := Except.ok.inj hu
    have hform := Form.one hone.1 hone.2
    rw [UInt8.ofNat_toNat] at hform
    exact ⟨[a], hform, hdrop⟩
  split at hunit
  · next htwo =>
    obtain ⟨hu, rfl⟩ := Prod.mk.inj hunit
    obtain ⟨m, hm, hu⟩ := Result.bind_eq_ok.mp hu
    obtain ⟨c, hc, hcont, rfl⟩ := drop_of_continuationAt hm
    obtain rfl := Except.ok.inj hu
    exact ⟨[a, c], form_two htwo hcont, by rw [hdrop, hc]; rfl⟩
  split at hunit
  · next hthree =>
    obtain ⟨hu, rfl⟩ := Prod.mk.inj hunit
    obtain ⟨m, hm, hu⟩ := Result.bind_eq_ok.mp hu
    obtain ⟨k, hk, hu⟩ := Result.bind_eq_ok.mp hu
    obtain ⟨c, hc, hcont, rfl⟩ := drop_of_continuationAt hm
    obtain ⟨d, hd, hcont', rfl⟩ := drop_of_continuationAt hk
    obtain rfl := Except.ok.inj hu
    exact ⟨[a, c, d], form_three hthree hcont hcont', by rw [hdrop, hc, hd]; rfl⟩
  · exact nomatch (Prod.mk.inj hunit).1

theorem Cut.spells {ps : List (Nat × Nat)} (h : Cut b i (ps.map Item.ofUnit)) :
    Spells (ps.map Prod.snd) (b.drop i) := by
  generalize hitems : ps.map Item.ofUnit = items at h
  induction h generalizing ps with
  | done hle =>
    obtain rfl : ps = [] := List.map_eq_nil_iff.mp hitems
    rw [List.drop_eq_nil_iff.mpr hle]
    exact .nil
  | unit hget hunit _ ih =>
    obtain ⟨p, ps, rfl, hp, hps⟩ := List.map_eq_cons_iff.mp hitems
    obtain ⟨form, hform, hdrop⟩ := form_of_unitAt hget hunit
    have hu := (Item.unit.inj hp).2
    rw [hdrop, List.map_cons, hu]
    exact .cons hform (ih hps)
  | defect _ _ _ _ =>
    obtain ⟨p, ps, rfl, hp, -⟩ := List.map_eq_cons_iff.mp hitems
    exact nomatch hp

/-! ## Characters that were joined -/

theorem units_ofNat (hlt : u < 0x10000) (hhigh : isHigh u = false) (hlow : isLow u = false) :
    units (Char.ofNat u) = [u] := by
  have hhigh := mt isHigh_iff.mpr (Bool.not_eq_true _ ▸ hhigh)
  have hlow := mt isLow_iff.mpr (Bool.not_eq_true _ ▸ hlow)
  have hvalid : u.isValidChar := by
    unfold Nat.isValidChar
    omega
  have hchar : (Char.ofNat u).toNat = u := by rw [Char.toNat_ofNat, if_pos hvalid]
  rw [units, hchar]
  exact if_pos hlt

theorem units_ofPair {low : Nat} (hhigh : isHigh u = true) (hlow : isLow low = true) :
    units (Char.ofNat (0x10000 + 0x400 * (u - 0xD800) + (low - 0xDC00))) = [u, low] := by
  have hu := isHigh_iff.mp hhigh
  have hl := isLow_iff.mp hlow
  generalize hv : 0x10000 + 0x400 * (u - 0xD800) + (low - 0xDC00) = v
  have hvalid : v.isValidChar := by
    unfold Nat.isValidChar
    omega
  have hchar : (Char.ofNat v).toNat = v := by rw [Char.toNat_ofNat, if_pos hvalid]
  have hfirst : 0xD800 + (v - 0x10000) / 0x400 = u := by omega
  have hsecond : 0xDC00 + (v - 0x10000) % 0x400 = low := by omega
  have hlarge : ¬ v < 0x10000 := by omega
  rw [units, hchar, if_neg hlarge, hfirst, hsecond]

theorem glyphAt_high (hhigh : isHigh u = true) (us : List (Nat × Nat)) (k start : Nat) :
    glyphAt us k start u = (.lone start, 1) ∨
      ∃ at_ low, us[k + 1]? = some (at_, low) ∧ isLow low = true ∧
        glyphAt us k start u = (.char (Char.ofNat (0x10000 + 0x400 * (u - 0xD800) + (low - 0xDC00))), 2) := by
  unfold glyphAt
  rw [if_pos hhigh]
  split
  · next at_ low hnext =>
    split
    · next hlow => exact .inr ⟨at_, low, hnext, hlow, rfl⟩
    · exact .inl rfl
  · exact .inl rfl

/-- A surrogate that stands alone is one unit. A character is joined of its units. -/
theorem glyphAt_cases {us : List (Nat × Nat)} {k start : Nat} {g : Glyph} (hget : us[k]? = some (start, u))
    (hlt : u < 0x10000) (h : glyphAt us k start u = (g, n)) :
    (g = .lone start ∧ 0xD800 ≤ u ∧ us.drop k = (start, u) :: us.drop (k + n)) ∨
      ∃ c, g = .char c ∧ (us.drop k).map Prod.snd = units c ++ (us.drop (k + n)).map Prod.snd := by
  have hdrop := drop_of_getElem? hget
  cases hhigh : isHigh u with
  | true =>
    rcases glyphAt_high hhigh us k start with hlone | ⟨at_, low, hnext, hlow, hpair⟩
    · obtain ⟨rfl, rfl⟩ := Prod.mk.inj (hlone.symm.trans h)
      exact .inl ⟨rfl, (isHigh_iff.mp hhigh).1, hdrop⟩
    · obtain ⟨rfl, rfl⟩ := Prod.mk.inj (hpair.symm.trans h)
      refine .inr ⟨_, rfl, ?_⟩
      rw [units_ofPair hhigh hlow, hdrop, drop_of_getElem? hnext]
      rfl
  | false =>
    unfold glyphAt at h
    simp only [hhigh, Bool.false_eq_true, if_false] at h
    split at h
    · next hlow =>
      obtain ⟨rfl, rfl⟩ := Prod.mk.inj h
      have hle := (isLow_iff.mp hlow).1
      exact .inl ⟨rfl, by omega, hdrop⟩
    · next hlow =>
      obtain ⟨rfl, rfl⟩ := Prod.mk.inj h
      refine .inr ⟨_, rfl, ?_⟩
      rw [units_ofNat hlt hhigh (Bool.eq_false_iff.mpr hlow), hdrop]
      rfl

theorem Joins.units_eq {us : List (Nat × Nat)} {k : Nat} {cs : List Char} (h : Joins us k (cs.map Glyph.char))
    (hlt : ∀ p ∈ us, p.2 < 0x10000) : (us.drop k).map Prod.snd = cs.flatMap units := by
  generalize hglyphs : cs.map Glyph.char = glyphs at h
  induction h generalizing cs with
  | done hle =>
    obtain rfl : cs = [] := List.map_eq_nil_iff.mp hglyphs
    rw [List.drop_eq_nil_iff.mpr hle]
    rfl
  | glyph hget hglyph _ ih =>
    obtain ⟨c, cs, rfl, rfl, hcs⟩ := List.map_eq_cons_iff.mp hglyphs
    rcases glyphAt_cases hget (hlt _ (List.mem_of_getElem? hget)) hglyph with ⟨hlone, -⟩ | ⟨c', hc, hdrop⟩
    · exact nomatch hlone
    · obtain rfl := Glyph.char.inj hc
      rw [hdrop, ih hcs, List.flatMap_cons]

/-! ## Texts that were decoded -/

theorem ofUnit_of_strictUnits_go {items : List Item} {acc us : List (Nat × Nat)}
    (h : strictUnits.go acc items = .ok us) : items = (items.map Item.lossyUnit).map Item.ofUnit := by
  induction items generalizing acc with
  | nil => rfl
  | cons item items ih =>
    cases item with
    | unit start u => exact congrArg (Item.unit start u :: ·) (ih h)
    | defect start cause => exact nomatch h

theorem char_of_strictChars_go {glyphs : List Glyph} {acc cs : List Char}
    (h : strictChars.go acc glyphs = .ok cs) : glyphs = (glyphs.map Glyph.lossyChar).map Glyph.char := by
  induction glyphs generalizing acc with
  | nil => rfl
  | cons glyph glyphs ih =>
    cases glyph with
    | char c => exact congrArg (Glyph.char c :: ·) (ih h)
    | lone start => exact nomatch h

theorem spells_of_decode (h : decode b = .ok s) : Spells (s.toList.flatMap units) b := by
  obtain ⟨us, hus, h⟩ := Result.bind_eq_ok.mp h
  obtain ⟨cs, hcs, h⟩ := Result.bind_eq_ok.mp h
  obtain rfl : String.ofList cs = s := Except.ok.inj h
  have hunits : us = (scan b).map Item.lossyUnit := eq_of_strictUnits_go hus
  have hchars : cs = (assemble us).map Glyph.lossyChar := eq_of_strictChars_go hcs
  have hcut := cut_scan b
  have hlt : ∀ p ∈ us, p.2 < 0x10000 := hunits ▸ hcut.unit_lt
  have hjoins := joins_assemble us
  rw [ofUnit_of_strictUnits_go hus, ← hunits] at hcut
  rw [char_of_strictChars_go hcs, ← hchars] at hjoins
  rw [String.toList_ofList, ← hjoins.units_eq hlt]
  exact hcut.spells

/-- A text is decoded from the bytes that spell its units, and from no others. -/
theorem decode_eq_ok_iff : decode b = .ok s ↔ Spells (s.toList.flatMap units) b :=
  ⟨spells_of_decode, decode_of_spells⟩

/-! ## The shortest forms -/

/-- Do these bytes begin a form that is longer than it has to be? The first one holds none of the bits that call
for that many bytes. Only zero is written so. -/
def beginsLong (a m : UInt8) : Bool :=
  a = 0xC1 || a = 0xC0 && m ≠ 0x80 || a = 0xE0 && m < 0xA0

/-- Is a unit written in more bytes than it has to? -/
def overlong : Bytes → Bool
  | a :: m :: rest => beginsLong a m || overlong (m :: rest)
  | _ => false

theorem overlong_cons (h : a.toNat < 0xC0) (rest : Bytes) : overlong (a :: rest) = overlong rest := by
  have hC0 : a ≠ 0xC0 := fun he => absurd (he ▸ h) (by decide)
  have hC1 : a ≠ 0xC1 := fun he => absurd (he ▸ h) (by decide)
  have hE0 : a ≠ 0xE0 := fun he => absurd (he ▸ h) (by decide)
  cases rest with
  | nil => rfl
  | cons m rest => simp [overlong, beginsLong, hC0, hC1, hE0]

theorem beginsLong_eq_false_iff {a m : UInt8} :
    beginsLong a m = false ↔
      a.toNat ≠ 0xC1 ∧ (a.toNat = 0xC0 → m.toNat = 0x80) ∧ (a.toNat = 0xE0 → 0xA0 ≤ m.toNat) := by
  simp only [beginsLong, Bool.or_eq_false_iff, Bool.and_eq_false_iff, decide_eq_false_iff_not, ne_eq,
    ← UInt8.toNat_inj, UInt8.lt_iff_toNat_lt, UInt8.reduceToNat]
  omega

theorem Form.overlong_append (h : Form u form) (rest : Bytes) :
    overlong (form ++ rest) = false ↔ form = encodeUnit u ∧ overlong rest = false := by
  cases h with
  | one hpos hlt =>
    have hu : (UInt8.ofNat u).toNat = u := toNat_ofNat (by omega)
    have hform : encodeUnit u = [UInt8.ofNat u] := if_pos ⟨hpos, hlt⟩
    rw [hform, List.singleton_append, overlong_cons (by omega), eq_self, true_and]
  | two hlt =>
    have hlead : (UInt8.ofNat (0xC0 + u / 64)).toNat = 0xC0 + u / 64 := toNat_ofNat (by omega)
    have hnext : (UInt8.ofNat (0x80 + u % 64)).toNat = 0x80 + u % 64 := toNat_ofNat (by omega)
    rw [List.cons_append, List.singleton_append, overlong, Bool.or_eq_false_iff, overlong_cons (by omega),
      beginsLong_eq_false_iff, hlead, hnext]
    refine and_congr_left fun _ => ?_
    by_cases hone : 0 < u ∧ u < 0x80
    · rw [encodeUnit, if_pos hone]
      exact iff_of_false (by omega) (by simp)
    · rw [encodeUnit, if_neg hone, if_pos hlt]
      exact iff_of_true (by omega) rfl
  | three hlt =>
    have hlead : (UInt8.ofNat (0xE0 + u / 4096)).toNat = 0xE0 + u / 4096 := toNat_ofNat (by omega)
    have hnext : (UInt8.ofNat (0x80 + u / 64 % 64)).toNat = 0x80 + u / 64 % 64 := toNat_ofNat (by omega)
    have hlast : (UInt8.ofNat (0x80 + u % 64)).toNat = 0x80 + u % 64 := toNat_ofNat (by omega)
    rw [List.cons_append, List.cons_append, List.singleton_append, overlong, Bool.or_eq_false_iff,
      overlong_cons (by omega), overlong_cons (by omega), beginsLong_eq_false_iff, hlead, hnext]
    refine and_congr_left fun _ => ?_
    by_cases hone : 0 < u ∧ u < 0x80
    · rw [encodeUnit, if_pos hone]
      exact iff_of_false (by omega) (by simp)
    by_cases htwo : u < 0x800
    · rw [encodeUnit, if_neg hone, if_pos htwo]
      exact iff_of_false (by omega) (by simp)
    · rw [encodeUnit, if_neg hone, if_neg htwo]
      exact iff_of_true (by omega) rfl

theorem Spells.eq_encodeUnits (h : Spells us b) (hb : overlong b = false) : b = us.flatMap encodeUnit := by
  induction h with
  | nil => rfl
  | cons hform _ ih =>
    obtain ⟨hshort, hrest⟩ := (hform.overlong_append _).mp hb
    rw [List.flatMap_cons, ← hshort, ← ih hrest]

theorem overlong_encodeUnits (hus : ∀ u ∈ us, u < 65536) : overlong (us.flatMap encodeUnit) = false := by
  induction us with
  | nil => rfl
  | cons u us ih =>
    obtain ⟨hu, hus⟩ := List.forall_mem_cons.mp hus
    rw [List.flatMap_cons]
    exact ((form_encodeUnit hu).overlong_append _).mpr ⟨rfl, ih hus⟩

/-- What a text is written with are the bytes that are decoded into it and in which no form is too long. -/
theorem encode_eq_iff : encode s = b ↔ decode b = .ok s ∧ overlong b = false := by
  constructor
  · rintro rfl
    exact ⟨decode_encode s, overlong_encodeUnits (units_lt_of_mem s)⟩
  · intro ⟨hdecode, hshort⟩
    exact ((spells_of_decode hdecode).eq_encodeUnits hshort).symm

theorem encode_ascii (h : ∀ a ∈ b, 0 < a.toNat ∧ a.toNat < 0x80) :
    encode (String.ofList (b.map fun a => Char.ofNat a.toNat)) = b := by
  rw [encode, String.toList_ofList]
  induction b with
  | nil => rfl
  | cons a b ih =>
    obtain ⟨ha, hb⟩ := List.forall_mem_cons.mp h
    have hunits : units (Char.ofNat a.toNat) = [a.toNat] :=
      units_ofNat (by omega) (Bool.eq_false_iff.mpr (mt isHigh_iff.mp (by omega)))
        (Bool.eq_false_iff.mpr (mt isLow_iff.mp (by omega)))
    have hunit : encodeUnit a.toNat = [a] := by rw [encodeUnit, if_pos ha, UInt8.ofNat_toNat]
    rw [List.map_cons, List.flatMap_cons, List.flatMap_append, ih hb, hunits, List.flatMap_singleton, hunit]
    rfl

theorem decode_ascii (h : (b.all (· < 0x80) && !b.contains 0) = true) :
    decode b = .ok (String.ofList (b.map fun a => Char.ofNat a.toNat)) := by
  simp only [Bool.and_eq_true, List.all_eq_true, decide_eq_true_eq, Bool.not_eq_true', List.contains_eq_mem,
    decide_eq_false_iff_not] at h
  have hascii : ∀ a ∈ b, 0 < a.toNat ∧ a.toNat < 0x80 := by
    intro a ha
    refine ⟨Nat.pos_of_ne_zero fun hzero => h.2 ?_, UInt8.lt_iff_toNat_lt.mp (h.1 a ha)⟩
    rwa [← UInt8.toNat_inj.mp (hzero.trans UInt8.toNat_zero.symm)]
  have hdecode := decode_encode (String.ofList (b.map fun a => Char.ofNat a.toNat))
  rwa [encode_ascii hascii] at hdecode

/-! ## Zero -/

theorem Form.zero_notMem (h : Form u form) : 0 ∉ form := by
  have hne {n : Nat} (hpos : 0 < n) (hlt : n < 256) : 0 ≠ UInt8.ofNat n := by
    intro he
    have hv := congrArg UInt8.toNat he
    rw [toNat_ofNat hlt, UInt8.toNat_zero] at hv
    omega
  cases h with
  | one hpos hlt => simp only [List.mem_singleton, hne hpos (by omega), not_false_eq_true]
  | two hlt =>
    have h₁ := hne (n := 0xC0 + u / 64) (by omega) (by omega)
    have h₂ := hne (n := 0x80 + u % 64) (by omega) (by omega)
    simp only [List.mem_cons, List.not_mem_nil, h₁, h₂, or_self, not_false_eq_true]
  | three hlt =>
    have h₁ := hne (n := 0xE0 + u / 4096) (by omega) (by omega)
    have h₂ := hne (n := 0x80 + u / 64 % 64) (by omega) (by omega)
    have h₃ := hne (n := 0x80 + u % 64) (by omega) (by omega)
    simp only [List.mem_cons, List.not_mem_nil, h₁, h₂, h₃, or_self, not_false_eq_true]

theorem Spells.zero_notMem (h : Spells us b) : 0 ∉ b := by
  induction h with
  | nil => exact List.not_mem_nil
  | cons hform _ ih => exact fun hmem => (List.mem_append.mp hmem).elim hform.zero_notMem ih

/-- Every text can be read again from what is written for it, by a strict and by a lossy decoder. No byte of it
is zero. -/
theorem encode_reversible (s : String) : decode (encode s) = .ok s ∧ decodeLossy (encode s) = s ∧ 0 ∉ encode s :=
  ⟨decode_encode s, decodeLossy_of_decode (decode_encode s), (spells_encode s).zero_notMem⟩

end SourceLabel.Text.Modified
