import SourceLabel.Proofs.Machine.Basic
import SourceLabel.Proofs.Text.Forms

/-!
# Modified UTF-8 on a machine

The machine decodes in two loops, one over the bytes and one over the units, and both look ahead by position.
Where they stand is compared with what the look ahead says is to come from there.
-/
namespace SourceLabel.Machine

open Text Text.Modified

/-! ## The machine -/

def continuation (b : Bytes) (i : Nat) : Except Defect Nat :=
  match b[i]? with
  | some c => if c &&& 0xC0 = 0x80 then .ok (c &&& 0x3F).toNat else .error ⟨i⟩
  | none => .error ⟨i⟩

/-- The unit at `i`, and how many bytes it takes. -/
def readUnit (b : Bytes) (i : Nat) : Checked (Except Defect Nat × Nat) := do
  let a ← fetch b[i]?
  if 0x01 ≤ a ∧ a ≤ 0x7F then return (.ok a.toNat, 1)
  else if 0xC0 ≤ a ∧ a ≤ 0xDF then
    let next ← add i 1
    return (do
      let m ← continuation b next
      return (a &&& 0x1F).toNat <<< 6 ||| m, 2)
  else if 0xE0 ≤ a ∧ a ≤ 0xEF then
    let next ← add i 1
    match continuation b next with
    | .error e => return (.error e, 3)
    | .ok m =>
      let last ← add i 2
      return (do
        let k ← continuation b last
        return (a &&& 0x0F).toNat <<< 12 ||| m <<< 6 ||| k, 3)
  else return (.error ⟨i⟩, 1)

/-- Cuts the bytes from `i` on into units, after those that there are. -/
def cutUnits (b : Bytes) (lossy : Bool) : (steps i : Nat) → List (Nat × Nat) →
    Guarded Defect (List (Nat × Nat))
  | 0, _, _ => (throw .endless : Checked _)
  | steps + 1, i, units =>
    if i < b.length then do
      let (unit, n) ← readUnit b i
      match unit with
      | .ok u => cutUnits b lossy steps (← add i n) ((i, u) :: units)
      | .error defect =>
        if lossy then cutUnits b lossy steps (← add i 1) ((i, 0xFFFD) :: units)
        else throw defect
    else return units.reverse

def charOf? (n : Nat) : Option Char :=
  if n.isValidChar then some (Char.ofNat n) else none

def add32 (a b : Nat) : Checked Nat :=
  if a + b < 2 ^ 32 then .ok (a + b) else .error .overflow

/-- The number that a pair of surrogates stands for. -/
def pairCode (high low : Nat) : Checked Nat := do
  let high ← sub high 0xD800
  let base ← add32 0x10000 (high <<< 10)
  let low ← sub low 0xDC00
  add32 base low

/-- The character that begins at position `k` of the units, if there is one, and the position of its last unit. -/
def readChar (us : List (Nat × Nat)) (k u : Nat) : Checked (Option Char × Nat) :=
  if isHigh u then do
    let next ← add k 1
    match us[next]? with
    | some (_, low) =>
      if isLow low then
        let code ← pairCode u low
        return (charOf? code, next)
      else return (none, k)
    | none => return (none, k)
  else return (charOf? u, k)

/-- Joins the units from `k` on into characters, after those that there are. -/
def joinUnits (us : List (Nat × Nat)) (lossy : Bool) : (steps k : Nat) → List Char → Guarded Defect String
  | 0, _, _ => (throw .endless : Checked _)
  | steps + 1, k, chars =>
    if k < us.length then do
      let (start, u) ← (fetch us[k]? : Checked (Nat × Nat))
      let (c?, last) ← readChar us k u
      match c? with
      | some c => joinUnits us lossy steps (← add last 1) (c :: chars)
      | none =>
        if lossy then joinUnits us lossy steps (← add last 1) (replacement :: chars)
        else throw ⟨start⟩
    else return String.ofList chars.reverse

def decodeUnits (b : Bytes) (lossy : Bool) : Guarded Defect String := do
  allocate (elementSize * b.length)
  let us ← cutUnits b lossy (b.length + 1) 0 []
  allocate us.length
  joinUnits us lossy (us.length + 1) 0 []

def decode (b : Bytes) : Guarded Defect String :=
  if b.all (· < 0x80) && !b.contains 0 then return String.ofList (b.map fun a => Char.ofNat a.toNat)
  else decodeUnits b false

def decodeLossy (b : Bytes) : Checked String := do
  let r ← (decodeUnits b true).run
  return r.toOption.getD ""

/-! ## Bits -/

theorem isContinuation_iff (c : UInt8) : c &&& 0xC0 = 0x80 ↔ Scan.isContinuation c = true := by
  have h : ∀ n < 256, UInt8.ofNat n &&& 0xC0 = 0x80 ↔ Scan.isContinuation (UInt8.ofNat n) = true := by
    decide +kernel
  have hc := h c.toNat c.toNat_lt
  rwa [UInt8.ofNat_toNat] at hc

theorem toNat_and_low {a mask : UInt8} {k n : Nat} (hmask : mask.toNat = 2 ^ k - 1) (hle : n ≤ a.toNat)
    (hlt : a.toNat < n + 2 ^ k) (hn : 2 ^ k ∣ n) : (a &&& mask).toNat = a.toNat - n := by
  obtain ⟨q, rfl⟩ := hn
  rw [UInt8.toNat_and, hmask, Nat.and_two_pow_sub_one_eq_mod]
  obtain ⟨r, hr⟩ := Nat.exists_eq_add_of_le hle
  have hrlt : r < 2 ^ k := by omega
  rw [hr, Nat.mul_add_mod, Nat.mod_eq_of_lt hrlt, Nat.add_sub_cancel_left]

theorem two_bytes {a : UInt8} {m : Nat} (ha : 0xC0 ≤ a ∧ a < 0xE0) (hm : m < 64) :
    (a &&& 0x1F).toNat <<< 6 ||| m = 64 * (a.toNat - 0xC0) + m := by
  simp only [UInt8.lt_iff_toNat_lt, UInt8.le_iff_toNat_le, UInt8.reduceToNat] at ha
  have hlow : (a &&& 0x1F).toNat = a.toNat - 0xC0 := toNat_and_low (k := 5) rfl ha.1 ha.2 (by decide)
  rw [hlow, ← Nat.shiftLeft_add_eq_or_of_lt hm, Nat.shiftLeft_eq, Nat.mul_comm]

theorem three_bytes {a : UInt8} {m k : Nat} (ha : 0xE0 ≤ a ∧ a < 0xF0) (hm : m < 64) (hk : k < 64) :
    (a &&& 0x0F).toNat <<< 12 ||| m <<< 6 ||| k = 4096 * (a.toNat - 0xE0) + 64 * m + k := by
  simp only [UInt8.lt_iff_toNat_lt, UInt8.le_iff_toNat_le, UInt8.reduceToNat] at ha
  have hlow : (a &&& 0x0F).toNat = a.toNat - 0xE0 := toNat_and_low (k := 4) rfl ha.1 ha.2 (by decide)
  have hmid : m <<< 6 < 2 ^ 12 := by
    rw [Nat.shiftLeft_eq]
    omega
  have hshift : (a.toNat - 0xE0) <<< 12 + m <<< 6 = ((a.toNat - 0xE0) <<< 6 + m) <<< 6 := by
    simp only [Nat.shiftLeft_eq]
    omega
  rw [hlow, ← Nat.shiftLeft_add_eq_or_of_lt hmid, hshift, ← Nat.shiftLeft_add_eq_or_of_lt hk]
  simp only [Nat.shiftLeft_eq]
  omega

theorem continuation_eq (b : Bytes) (i : Nat) :
    continuation b i = (continuationAt b i).mapError Defect.mk := by
  unfold continuation continuationAt
  cases b[i]? with
  | none => rfl
  | some c =>
    cases hc : Scan.isContinuation c with
    | true =>
      have hbounds := hc
      simp only [Scan.isContinuation, Bool.and_eq_true, decide_eq_true_eq, UInt8.lt_iff_toNat_lt,
        UInt8.le_iff_toNat_le, UInt8.reduceToNat] at hbounds
      have hlow : (c &&& 0x3F).toNat = c.toNat - 0x80 :=
        toNat_and_low (k := 6) rfl hbounds.1 (by omega) (by decide)
      simp only [(isContinuation_iff c).mpr hc, hc, if_true, hlow]
      rfl
    | false =>
      have hnot : ¬ (c &&& 0xC0 = 0x80) := fun h => by simp [(isContinuation_iff c).mp h] at hc
      simp only [hnot, hc, if_false, Bool.false_eq_true]
      rfl

/-! ## Units -/

variable {b : Bytes} {i : Nat} {a : UInt8}

theorem readUnit_eq (hb : b.length < lengthBound) (hget : b[i]? = some a) :
    readUnit b i = .ok ((unitAt b i a).1.mapError Defect.mk, (unitAt b i a).2) := by
  have hword := wordBound_eq
  have hbound := lengthBound_eq
  have hi := (List.getElem?_eq_some_iff.mp hget).1
  have hnext : add i 1 = .ok (i + 1) := add_eq (by omega)
  have hlast : add i 2 = .ok (i + 2) := add_eq (by omega)
  have hascii : 0x01 ≤ a ∧ a ≤ 0x7F ↔ 0 < a ∧ a < 0x80 := by
    simp only [UInt8.lt_iff_toNat_lt, UInt8.le_iff_toNat_le, UInt8.reduceToNat]
    omega
  have htwo : 0xC0 ≤ a ∧ a ≤ 0xDF ↔ 0xC0 ≤ a ∧ a < 0xE0 := by
    simp only [UInt8.lt_iff_toNat_lt, UInt8.le_iff_toNat_le, UInt8.reduceToNat]
    omega
  have hthree : 0xE0 ≤ a ∧ a ≤ 0xEF ↔ 0xE0 ≤ a ∧ a < 0xF0 := by
    simp only [UInt8.lt_iff_toNat_lt, UInt8.le_iff_toNat_le, UInt8.reduceToNat]
    omega
  simp only [readUnit, unitAt, hget, fetch_some, ok_bind, hascii, htwo, hthree, hnext, hlast, continuation_eq]
  by_cases h₁ : 0 < a ∧ a < 0x80
  · rw [if_pos h₁, if_pos h₁]
    rfl
  rw [if_neg h₁, if_neg h₁]
  by_cases h₂ : 0xC0 ≤ a ∧ a < 0xE0
  · rw [if_pos h₂, if_pos h₂]
    cases hm : continuationAt b (i + 1) with
    | error cause => rfl
    | ok m =>
      simp only [Except.mapError, ok_bind, two_bytes h₂ (continuationAt_lt hm)]
      rfl
  rw [if_neg h₂, if_neg h₂]
  by_cases h₃ : 0xE0 ≤ a ∧ a < 0xF0
  · rw [if_pos h₃, if_pos h₃]
    cases hm : continuationAt b (i + 1) with
    | error cause => rfl
    | ok m =>
      cases hk : continuationAt b (i + 2) with
      | error cause => rfl
      | ok k =>
        simp only [Except.mapError, ok_bind, three_bytes h₃ (continuationAt_lt hm) (continuationAt_lt hk)]
        rfl
  rw [if_neg h₃, if_neg h₃]
  rfl

/-- The loop over the bytes gives a unit for each item, or ends at the first defect if it is strict. -/
theorem cutUnits_eq (hb : b.length < lengthBound) {items : List Item} (h : Cut b i items) (lossy : Bool)
    {steps : Nat} (hsteps : b.length - i < steps) (before : List (Nat × Nat)) :
    cutUnits b lossy steps i before =
      answer (if lossy then .ok (before.reverse ++ items.map Item.lossyUnit)
        else strictUnits.go before items) := by
  have hword := wordBound_eq
  have hbound := lengthBound_eq
  obtain ⟨steps, rfl⟩ : ∃ n, steps = n + 1 := ⟨steps - 1, by omega⟩
  induction h generalizing steps before with
  | done hle =>
    rw [cutUnits, if_neg (Nat.not_lt.mpr hle), List.map_nil, List.append_nil]
    cases lossy <;> rfl
  | @unit i u n a items hget hunit hcut ih =>
    have hi := (List.getElem?_eq_some_iff.mp hget).1
    have hn := unitAt_length hunit
    have hadd : add i n = .ok (i + n) := add_eq (by omega)
    obtain ⟨steps, rfl⟩ : ∃ n, steps = n + 1 := ⟨steps - 1, by omega⟩
    rw [cutUnits, if_pos hi, readUnit_eq hb hget, hunit, lift_bind]
    simp only [Except.mapError, hadd, lift_bind]
    rw [ih ((i, u) :: before) steps (by omega)]
    cases lossy with
    | true => simp [Item.lossyUnit]
    | false => rfl
  | @defect i cause n a items hget hunit hcut ih =>
    have hi := (List.getElem?_eq_some_iff.mp hget).1
    have hadd : add i 1 = .ok (i + 1) := add_eq (by omega)
    obtain ⟨steps, rfl⟩ : ∃ n, steps = n + 1 := ⟨steps - 1, by omega⟩
    rw [cutUnits, if_pos hi, readUnit_eq hb hget, hunit, lift_bind]
    cases lossy with
    | false => rfl
    | true =>
      simp only [Except.mapError, hadd, lift_bind, if_true]
      rw [ih ((i, 0xFFFD) :: before) steps (by omega)]
      simp [Item.lossyUnit]

/-! ## Characters -/

variable {us : List (Nat × Nat)} {k start u : Nat}

theorem charOf?_of_valid (h : u < 0xD800 ∨ 0xDFFF < u ∧ u < 0x110000) : charOf? u = some (Char.ofNat u) :=
  if_pos h

theorem charOf?_of_low (h : isLow u = true) : charOf? u = none := by
  have hlow := isLow_iff.mp h
  refine if_neg fun hvalid => ?_
  rcases hvalid with hlt | hgt <;> omega

theorem add32_eq {a b : Nat} (h : a + b < 2 ^ 32) : add32 a b = .ok (a + b) :=
  if_pos h

theorem pairCode_eq {low : Nat} (hhigh : isHigh u = true) (hlow : isLow low = true) :
    pairCode u low = .ok (0x10000 + 0x400 * (u - 0xD800) + (low - 0xDC00)) := by
  have hu := isHigh_iff.mp hhigh
  have hl := isLow_iff.mp hlow
  have hshift : (u - 0xD800) <<< 10 = 0x400 * (u - 0xD800) := by rw [Nat.shiftLeft_eq, Nat.mul_comm]
  rw [pairCode, sub_eq hu.1, ok_bind, hshift, add32_eq (by omega), ok_bind, sub_eq hl.1, ok_bind,
    add32_eq (by omega)]

/-- What a glyph is read as: a character, or none if it is a surrogate that stands alone. -/
def charOfGlyph? : Glyph → Option Char
  | .char c => some c
  | .lone _ => none

theorem readChar_eq (hus : us.length < lengthBound) (hget : us[k]? = some (start, u)) (hu : u < 65536) :
    ∃ last, readChar us k u = .ok (charOfGlyph? (glyphAt us k start u).1, last) ∧
      last + 1 = k + (glyphAt us k start u).2 := by
  have hword := wordBound_eq
  have hbound := lengthBound_eq
  have hk := (List.getElem?_eq_some_iff.mp hget).1
  have hnext : add k 1 = .ok (k + 1) := add_eq (by omega)
  unfold readChar glyphAt
  cases hhigh : isHigh u with
  | true =>
    simp only [if_true, hnext, ok_bind]
    cases hus : us[k + 1]? with
    | none => exact ⟨k, rfl, rfl⟩
    | some next =>
      obtain ⟨place, low⟩ := next
      cases hlow : isLow low with
      | false => exact ⟨k, by simp [hlow, charOfGlyph?, pure, Except.pure], by simp [hlow]⟩
      | true =>
        have hvalid := charOf?_of_valid (u := 0x10000 + 0x400 * (u - 0xD800) + (low - 0xDC00)) (by
          have hu := isHigh_iff.mp hhigh
          have hl := isLow_iff.mp hlow
          omega)
        simp only [hlow, if_true, pairCode_eq hhigh hlow, ok_bind, hvalid]
        exact ⟨k + 1, rfl, rfl⟩
  | false =>
    cases hlow : isLow u with
    | true =>
      simp only [Bool.false_eq_true, if_false, if_true, charOf?_of_low hlow]
      exact ⟨k, rfl, rfl⟩
    | false =>
      have hvalid := charOf?_of_valid (u := u) (by
        have hhigh := mt isHigh_iff.mpr (Bool.not_eq_true _ ▸ hhigh)
        have hlow := mt isLow_iff.mpr (Bool.not_eq_true _ ▸ hlow)
        omega)
      simp only [Bool.false_eq_true, if_false, hvalid]
      exact ⟨k, rfl, rfl⟩

/-- The loop over the units gives a character for each glyph, or ends at the first lone surrogate if it is
strict. -/
theorem joinUnits_eq (hus : us.length < lengthBound) (hunits : ∀ p ∈ us, p.2 < 65536) {glyphs : List Glyph}
    (h : Joins us k glyphs) (lossy : Bool) {steps : Nat} (hsteps : us.length - k < steps) (before : List Char) :
    joinUnits us lossy steps k before =
      answer ((if lossy then .ok (before.reverse ++ glyphs.map Glyph.lossyChar)
        else strictChars.go before glyphs).map String.ofList) := by
  have hword := wordBound_eq
  have hbound := lengthBound_eq
  obtain ⟨steps, rfl⟩ : ∃ n, steps = n + 1 := ⟨steps - 1, by omega⟩
  induction h generalizing steps before with
  | done hle =>
    rw [joinUnits, if_neg (Nat.not_lt.mpr hle), List.map_nil, List.append_nil]
    cases lossy <;> rfl
  | @glyph k start u n g glyphs hget hglyph _ ih =>
    have hk := (List.getElem?_eq_some_iff.mp hget).1
    have hn := glyphAt_length hglyph
    obtain ⟨last, hread, hlast⟩ := readChar_eq hus hget (hunits _ (List.mem_of_getElem? hget))
    rw [hglyph] at hread hlast
    dsimp only at hread hlast
    obtain ⟨steps, rfl⟩ : ∃ n, steps = n + 1 := ⟨steps - 1, by omega⟩
    have hadd : add last 1 = .ok (k + n) := by
      rw [← hlast]
      exact add_eq (by omega)
    rw [joinUnits, if_pos hk, hget, fetch_some, lift_bind]
    simp only [hread, lift_bind]
    cases g with
    | char c =>
      simp only [charOfGlyph?, hadd, lift_bind]
      rw [ih (c :: before) steps (by omega)]
      cases lossy with
      | true => simp [Glyph.lossyChar]
      | false => rfl
    | lone place =>
      cases lossy with
      | false => rw [start_of_lone hglyph]; rfl
      | true =>
        simp only [charOfGlyph?, hadd, lift_bind, if_true]
        rw [ih (replacement :: before) steps (by omega)]
        simp [Glyph.lossyChar]

/-! ## Texts -/

theorem decodeUnits_eq (hb : elementSize * b.length < lengthBound) (lossy : Bool) :
    decodeUnits b lossy =
      answer (if lossy then .ok (Modified.decodeLossy b) else Modified.decode b) := by
  have hbound := lengthBound_eq
  have hlength : b.length < lengthBound := by
    rw [elementSize] at hb
    omega
  have hcut := cut_scan b
  have hitems := hcut.length_le
  have hunits : cutUnits b lossy (b.length + 1) 0 [] = _ :=
    cutUnits_eq hlength hcut lossy (Nat.lt_succ_self _) []
  rw [decodeUnits, allocate_eq hb, lift_bind, hunits]
  have hjoin : ∀ us : List (Nat × Nat), us = (scan b).map Item.lossyUnit →
      (do
        allocate us.length
        joinUnits us lossy (us.length + 1) 0 []) =
      answer ((if lossy then .ok ((assemble us).map Glyph.lossyChar)
        else strictChars (assemble us)).map String.ofList) := by
    intro us hus
    have hshort : us.length < lengthBound := by
      rw [hus, List.length_map]
      omega
    have hchars : joinUnits us lossy (us.length + 1) 0 [] = _ :=
      joinUnits_eq hshort (hus ▸ hcut.unit_lt) (joins_assemble us) lossy (Nat.lt_succ_self _) []
    rw [allocate_eq hshort, lift_bind, hchars]
    rfl
  -- A lossy run goes on with a unit for every item, a strict one only if no item is a defect.
  cases lossy with
  | true =>
    rw [if_pos rfl, answer_ok_bind, List.reverse_nil, List.nil_append, hjoin _ rfl]
    rfl
  | false =>
    rw [if_neg Bool.false_ne_true, Modified.decode, strictUnits]
    cases hunits : strictUnits.go [] (scan b) with
    | error defect => rfl
    | ok us =>
      rw [answer_ok_bind, hjoin us (eq_of_strictUnits_go hunits), if_neg Bool.false_ne_true, ok_bind]
      cases strictChars (assemble us) <;> rfl

theorem decodeLossy_eq (hb : elementSize * b.length < lengthBound) :
    decodeLossy b = .ok (Modified.decodeLossy b) := by
  rw [decodeLossy, decodeUnits_eq hb true]
  rfl

theorem decode_eq (hb : elementSize * b.length < lengthBound) : decode b = answer (Modified.decode b) := by
  unfold decode
  split
  · next h =>
    rw [decode_ascii h]
    rfl
  · exact decodeUnits_eq hb false

end SourceLabel.Machine
