import SourceLabel.Proofs.Text.Parts

/-!
# Strict and lossy decoding

A decoder goes through its input in two loops, one over the bytes and one over the units, and is strict or lossy.
What a strict decoder stops at, a lossy one replaces: after a byte that begins no unit it goes on with the next
byte, after a surrogate that stands alone with the next unit. Bytes that are ASCII need no loop.

The two agree on whatever the strict decoder reads, and every defect leaves its mark on what the lossy one gives.
-/
namespace SourceLabel.Text.Modified

variable {b : Bytes} {i k u start : Nat} {items : List Item} {us : List (Nat × Nat)} {glyphs : List Glyph}

/-! ## The two loops -/

/-- The units from `i` on, each with its place. -/
def unitsFrom (lossy : Bool) (b : Bytes) (i : Nat) : Except Defect (List (Nat × Nat)) :=
  match _ : b[i]? with
  | none => .ok []
  | some a =>
    match _ : unitAt b i a with
    | (.ok u, n) => (unitsFrom lossy b (i + n)).map ((i, u) :: ·)
    | (.error cause, _) =>
      if lossy then (unitsFrom lossy b (i + 1)).map ((i, 0xFFFD) :: ·) else .error ⟨cause⟩
termination_by b.length - i
decreasing_by
  all_goals
    have hi := (List.getElem?_eq_some_iff.mp ‹b[i]? = some _›).1
    have hn := unitAt_length ‹unitAt b i _ = _›
    omega

/-- The characters from the unit at position `k` on. -/
def charsFrom (lossy : Bool) (us : List (Nat × Nat)) (k : Nat) : Except Defect (List Char) :=
  match _ : us[k]? with
  | none => .ok []
  | some (start, u) =>
    match _ : glyphAt us k start u with
    | (.char c, n) => (charsFrom lossy us (k + n)).map (c :: ·)
    | (.lone start, n) =>
      if lossy then (charsFrom lossy us (k + n)).map (replacement :: ·) else .error ⟨start⟩
termination_by us.length - k
decreasing_by
  all_goals
    have hk := (List.getElem?_eq_some_iff.mp ‹us[k]? = some _›).1
    have hn := glyphAt_length ‹glyphAt us k _ _ = _›
    omega

/-- Decodes bytes by the two loops. -/
def decodeUnits (lossy : Bool) (b : Bytes) : Except Defect String := do
  let us ← unitsFrom lossy b 0
  let cs ← charsFrom lossy us 0
  return String.ofList cs

/-- Decodes bytes strictly. Those that are ASCII without a zero are taken as they are. -/
def decodeDirectly (b : Bytes) : Except Defect String :=
  if b.all (· < 0x80) && !b.contains 0 then .ok (String.ofList (b.map fun a => Char.ofNat a.toNat))
  else decodeUnits false b

/-! ## What stops a strict decoder -/

theorem strictUnits_go (acc : List (Nat × Nat)) (items : List Item) :
    strictUnits.go acc items = (strictUnits items).map (acc.reverse ++ ·) := by
  induction items generalizing acc with
  | nil => simp [strictUnits, strictUnits.go, Except.map]
  | cons item items ih =>
    cases item with
    | unit start u =>
      simp only [strictUnits, strictUnits.go]
      rw [ih, ih [(start, u)]]
      cases strictUnits items <;> simp [Except.map]
    | defect start cause => rfl

theorem strictUnits_unit (start u : Nat) (items : List Item) :
    strictUnits (.unit start u :: items) = (strictUnits items).map ((start, u) :: ·) := by
  rw [strictUnits, strictUnits.go, strictUnits_go]
  rfl

theorem strictUnits_eq_ok_iff : strictUnits items = .ok us ↔ items = us.map Item.ofUnit := by
  constructor
  · intro h
    have hus := eq_of_strictUnits_go h
    rw [List.reverse_nil, List.nil_append] at hus
    rw [ofUnit_of_strictUnits_go h, ← hus]
  · rintro rfl
    exact strictUnits_go_ofUnit us []

/-- The first defect of the bytes is what is reported of them, by its cause. -/
theorem strictUnits_eq_error_iff {d : Defect} :
    strictUnits items = .error d ↔
      ∃ (us : List (Nat × Nat)) (start : Nat) (rest : List Item),
        items = us.map Item.ofUnit ++ .defect start d.offset :: rest := by
  induction items with
  | nil => simp [strictUnits, strictUnits.go]
  | cons item items ih =>
    cases item with
    | unit start u =>
      rw [strictUnits_unit, Result.map_eq_error, ih]
      constructor
      · rintro ⟨us, at_, rest, rfl⟩
        exact ⟨(start, u) :: us, at_, rest, rfl⟩
      · rintro ⟨_ | ⟨p, us⟩, at_, rest, h⟩
        · cases (List.cons.inj h).1
        · exact ⟨us, at_, rest, (List.cons.inj h).2⟩
    | defect start cause =>
      constructor
      · intro h
        obtain rfl := Except.error.inj h
        exact ⟨[], start, items, rfl⟩
      · rintro ⟨_ | ⟨p, us⟩, at_, rest, h⟩
        · obtain ⟨-, rfl⟩ := Item.defect.inj (List.cons.inj h).1
          rfl
        · cases (List.cons.inj h).1

theorem strictChars_go (acc : List Char) (glyphs : List Glyph) :
    strictChars.go acc glyphs = (strictChars glyphs).map (acc.reverse ++ ·) := by
  induction glyphs generalizing acc with
  | nil => simp [strictChars, strictChars.go, Except.map]
  | cons glyph glyphs ih =>
    cases glyph with
    | char c =>
      simp only [strictChars, strictChars.go]
      rw [ih, ih [c]]
      cases strictChars glyphs <;> simp [Except.map]
    | lone start => rfl

theorem strictChars_char (c : Char) (glyphs : List Glyph) :
    strictChars (.char c :: glyphs) = (strictChars glyphs).map (c :: ·) := by
  rw [strictChars, strictChars.go, strictChars_go]
  rfl

/-- The first surrogate that stands alone is what is reported of the units. -/
theorem strictChars_eq_error_iff {d : Defect} :
    strictChars glyphs = .error d ↔
      ∃ (cs : List Char) (rest : List Glyph), glyphs = cs.map Glyph.char ++ .lone d.offset :: rest := by
  induction glyphs with
  | nil => simp [strictChars, strictChars.go]
  | cons glyph glyphs ih =>
    cases glyph with
    | char c =>
      rw [strictChars_char, Result.map_eq_error, ih]
      constructor
      · rintro ⟨cs, rest, rfl⟩
        exact ⟨c :: cs, rest, rfl⟩
      · rintro ⟨_ | ⟨c', cs⟩, rest, h⟩
        · cases (List.cons.inj h).1
        · exact ⟨cs, rest, (List.cons.inj h).2⟩
    | lone start =>
      constructor
      · intro h
        obtain rfl := Except.error.inj h
        exact ⟨[], glyphs, rfl⟩
      · rintro ⟨_ | ⟨c', cs⟩, rest, h⟩
        · obtain rfl := Glyph.lone.inj (List.cons.inj h).1
          rfl
        · cases (List.cons.inj h).1

/-- A strict decoder fails on a byte that belongs to no unit, or on a surrogate that stands alone. -/
theorem decode_eq_error_iff {d : Defect} :
    decode b = .error d ↔
      (∃ (us : List (Nat × Nat)) (start : Nat) (rest : List Item),
          scan b = us.map Item.ofUnit ++ .defect start d.offset :: rest) ∨
        ∃ (us : List (Nat × Nat)) (cs : List Char) (rest : List Glyph),
          scan b = us.map Item.ofUnit ∧ assemble us = cs.map Glyph.char ++ .lone d.offset :: rest := by
  unfold decode
  rw [Result.bind_eq_error, strictUnits_eq_error_iff]
  refine or_congr_right ?_
  constructor
  · rintro ⟨us, hus, h⟩
    rw [Result.bind_eq_error, strictChars_eq_error_iff] at h
    rcases h with ⟨cs, rest, h⟩ | ⟨_, _, h⟩
    · exact ⟨us, cs, rest, strictUnits_eq_ok_iff.mp hus, h⟩
    · exact nomatch h
  · rintro ⟨us, cs, rest, hus, h⟩
    exact ⟨us, strictUnits_eq_ok_iff.mpr hus, Result.bind_eq_error.mpr (.inl (strictChars_eq_error_iff.mpr ⟨cs, rest, h⟩))⟩

/-! ## What the loops give -/

theorem unitsFrom_eq (lossy : Bool) (b : Bytes) (i : Nat) :
    unitsFrom lossy b i =
      match b[i]? with
      | none => .ok []
      | some a =>
        match unitAt b i a with
        | (.ok u, n) => (unitsFrom lossy b (i + n)).map ((i, u) :: ·)
        | (.error cause, _) =>
          if lossy then (unitsFrom lossy b (i + 1)).map ((i, 0xFFFD) :: ·) else .error ⟨cause⟩ := by
  rw [unitsFrom]
  split
  · next hget => rw [hget]
  · next a hget =>
    simp only [hget]
    split
    · next hunit => rw [hunit]
    · next hunit => rw [hunit]

theorem Cut.unitsFrom_eq (h : Cut b i items) (lossy : Bool) :
    unitsFrom lossy b i = if lossy then .ok (items.map Item.lossyUnit) else strictUnits items := by
  induction h with
  | done hle =>
    rw [Modified.unitsFrom_eq, List.getElem?_eq_none_iff.mpr hle]
    cases lossy <;> rfl
  | unit hget hunit _ ih =>
    rw [Modified.unitsFrom_eq, hget]
    simp only [hunit]
    rw [ih, strictUnits_unit]
    cases lossy <;> rfl
  | defect hget hunit _ ih =>
    rw [Modified.unitsFrom_eq, hget]
    simp only [hunit]
    cases lossy with
    | false => rfl
    | true =>
      rw [ih]
      rfl

theorem charsFrom_eq (lossy : Bool) (us : List (Nat × Nat)) (k : Nat) :
    charsFrom lossy us k =
      match us[k]? with
      | none => .ok []
      | some (start, u) =>
        match glyphAt us k start u with
        | (.char c, n) => (charsFrom lossy us (k + n)).map (c :: ·)
        | (.lone start, n) =>
          if lossy then (charsFrom lossy us (k + n)).map (replacement :: ·) else .error ⟨start⟩ := by
  rw [charsFrom]
  split
  · next hget => rw [hget]
  · next start u hget =>
    simp only [hget]
    split
    · next hglyph => rw [hglyph]
    · next hglyph => rw [hglyph]

/-- The loop over the units joins them into the same glyphs, and stops at the first lone surrogate if it is
strict. -/
theorem Joins.charsFrom_eq (h : Joins us k glyphs) (lossy : Bool) :
    charsFrom lossy us k = if lossy then .ok (glyphs.map Glyph.lossyChar) else strictChars glyphs := by
  induction h with
  | done hle =>
    rw [Modified.charsFrom_eq, List.getElem?_eq_none_iff.mpr hle]
    cases lossy <;> rfl
  | @glyph k start u n g glyphs hget hglyph _ ih =>
    rw [Modified.charsFrom_eq, hget]
    simp only [hglyph]
    cases g with
    | char c =>
      simp only
      rw [ih, strictChars_char]
      cases lossy <;> rfl
    | lone at_ =>
      cases lossy with
      | false => rfl
      | true =>
        simp only [if_true]
        rw [ih]
        rfl

theorem decodeUnits_lossy (b : Bytes) : decodeUnits true b = .ok (decodeLossy b) := by
  have hunits : unitsFrom true b 0 = .ok (lossyUnits b) := (cut_scan b).unitsFrom_eq true
  have hchars : charsFrom true (lossyUnits b) 0 = .ok ((assemble (lossyUnits b)).map Glyph.lossyChar) :=
    (joins_assemble (lossyUnits b)).charsFrom_eq true
  unfold decodeUnits
  exact Result.bind_eq_ok.mpr ⟨_, hunits, Result.bind_eq_ok.mpr ⟨_, hchars, rfl⟩⟩

theorem decodeUnits_strict (b : Bytes) : decodeUnits false b = decode b := by
  unfold decodeUnits decode
  rw [(cut_scan b).unitsFrom_eq, if_neg Bool.false_ne_true]
  refine bind_congr fun us => ?_
  rw [(joins_assemble us).charsFrom_eq, if_neg Bool.false_ne_true]

theorem decodeDirectly_eq (b : Bytes) : decodeDirectly b = decodeUnits false b := by
  unfold decodeDirectly
  split
  · next h => rw [decodeUnits_strict, decode_ascii h]
  · rfl

/-! ## Marks -/

/-- A unit that is no surrogate is a character of its own, wherever it stands. -/
theorem assemble_append_cons (us rest : List (Nat × Nat)) (start : Nat) (hhigh : isHigh u = false)
    (hlow : isLow u = false) :
    assemble (us ++ (start, u) :: rest) = assemble us ++ .char (Char.ofNat u) :: assemble rest := by
  have hfirst : Join.step {} (start, u) = ⟨none, [.char (Char.ofNat u)]⟩ := by
    simp only [Join.step, Join.first, hhigh, hlow, Bool.false_eq_true, if_false]
  have hcons : assemble ((start, u) :: rest) = .char (Char.ofNat u) :: assemble rest := by
    rw [assemble, List.foldl_cons, hfirst, Join.finish_foldl]
    rfl
  rw [assemble_append, hcons]
  rintro p _ h
  exact (List.cons.inj h).1 ▸ hlow

/-- Where a strict decoder fails, a lossy one leaves U+FFFD. -/
theorem replacement_mem_decodeLossy {d : Defect} (h : decode b = .error d) :
    replacement ∈ (decodeLossy b).toList := by
  rw [decodeLossy_eq, String.toList_ofList]
  rcases decode_eq_error_iff.mp h with ⟨us, start, rest, hscan⟩ | ⟨us, cs, rest, hscan, hassemble⟩
  · have hunits : lossyUnits b = us ++ (start, 0xFFFD) :: rest.map Item.lossyUnit := by
      rw [lossyUnits, hscan, List.map_append, lossyUnits_ofUnit]
      rfl
    rw [hunits, assemble_append_cons us _ start (by decide) (by decide), List.map_append, List.map_cons]
    exact List.mem_append_right _ List.mem_cons_self
  · have hunits : lossyUnits b = us := by rw [lossyUnits, hscan, lossyUnits_ofUnit]
    rw [hunits, hassemble, List.map_append, List.map_cons]
    exact List.mem_append_right _ List.mem_cons_self

/-- The lossy loops never fail. What a strict decoder reads, a lossy one reads too; where the strict one fails, the
lossy one leaves U+FFFD. Without the loops, ASCII is read as it is with them. -/
theorem modes_agree (b : Bytes) :
    decodeUnits true b = .ok (decodeLossy b) ∧
      (∀ s, decode b = .ok s → decodeLossy b = s) ∧
      (∀ d, decode b = .error d → replacement ∈ (decodeLossy b).toList) ∧
      decodeDirectly b = decodeUnits false b ∧ decodeDirectly b = decode b :=
  ⟨decodeUnits_lossy b, fun _ => decodeLossy_of_decode, fun _ => replacement_mem_decodeLossy, decodeDirectly_eq b,
    (decodeDirectly_eq b).trans (decodeUnits_strict b)⟩

/-- A pair of surrogates in three bytes each, and the first of them alone. -/
theorem modes_agree_surrogates :
    decode [0xED, 0xA0, 0xBD, 0xED, 0xB8, 0x80] = .ok "😀" ∧
      decodeLossy [0xED, 0xA0, 0xBD, 0xED, 0xB8, 0x80] = "😀" ∧
      decode [0xED, 0xA0, 0xBD, 0x41] = .error ⟨0⟩ ∧ replacement ∈ (decodeLossy [0xED, 0xA0, 0xBD, 0x41]).toList := by
  have hpair : decode [0xED, 0xA0, 0xBD, 0xED, 0xB8, 0x80] = .ok "😀" := by decide
  have hlone : decode [0xED, 0xA0, 0xBD, 0x41] = .error ⟨0⟩ := by decide
  exact ⟨hpair, (modes_agree _).2.1 "😀" hpair, hlone, (modes_agree _).2.2.1 ⟨0⟩ hlone⟩

end SourceLabel.Text.Modified
