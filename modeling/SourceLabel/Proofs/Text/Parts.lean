import SourceLabel.Proofs.Text.Forms

/-!
# Decoding in parts

Both layers of the decoder forget what they have behind them as soon as a unit begins that cannot go on with
it: the scan at a byte that begins a unit or is alone, the joining at any unit but a low surrogate, or where no
high surrogate waits. From there on they do what they would do at the beginning, only that places are counted
from farther back.

A text begins with such a byte and such a unit, and nothing is under way where it ends. So it is read as itself
between any bytes, and what stands around it is read as if it stood alone.
-/
namespace SourceLabel.Text.Modified

variable {a b e form : Bytes} {o u : Nat} {us : List Nat}

/-! ## The scan -/

def Item.moved (o : Nat) : Item → Item
  | .unit start u => .unit (start + o) u
  | .defect start cause => .defect (start + o) (cause + o)

/-- How many bytes of the unit under way have been read. -/
def Held.size : Held → Nat
  | .none => 0
  | .lead _ => 1
  | .leadMid .. => 2

namespace Scan

/-- The same scan with `o` more bytes behind it, that were cut into the items `before`. -/
def moved (o : Nat) (before : List Item) (s : Scan) : Scan :=
  ⟨s.offset + o, s.held, s.items.map (Item.moved o) ++ before⟩

variable {s : Scan} {before : List Item} {c : UInt8}

theorem broken_moved (h : s.held.size ≤ s.offset) :
    (s.moved o before).broken = s.broken.map (Item.moved o) ++ before := by
  obtain ⟨offset, held, items⟩ := s
  cases held with
  | none => rfl
  | lead l =>
    simp only [Held.size] at h
    have hstart : offset + o - 1 = offset - 1 + o := by omega
    simp only [broken, moved, hstart]
    rfl
  | leadMid l m =>
    simp only [Held.size] at h
    have hstart : offset + o - 2 = offset - 2 + o := by omega
    have hmid : offset + o - 1 = offset - 1 + o := by omega
    simp only [broken, moved, hstart, hmid]
    rfl

theorem first_moved : (s.moved o before).first c = (s.first c).moved o before := by
  have hoffset : s.offset + o + 1 = s.offset + 1 + o := by omega
  unfold first moved
  split
  · simp only [hoffset]
    rfl
  · split
    · simp only [hoffset]
    · simp only [hoffset]
      rfl

theorem step_break (hc : isContinuation c = false) (s : Scan) :
    s.step c = first ⟨s.offset, .none, s.broken⟩ c := by
  simp only [step, hc, Bool.false_eq_true, if_false]

theorem step_moved (h : s.held.size ≤ s.offset) : (s.moved o before).step c = (s.step c).moved o before := by
  cases hc : isContinuation c with
  | false =>
    rw [step_break hc, step_break hc, broken_moved h, ← first_moved]
    rfl
  | true =>
    have hoffset : s.offset + o + 1 = s.offset + 1 + o := by omega
    obtain ⟨offset, held, items⟩ := s
    cases held with
    | none =>
      simp only [step, hc, if_true, ← first_moved]
      rfl
    | lead l =>
      simp only [Held.size] at h
      have hstart : offset + o - 1 = offset - 1 + o := by omega
      by_cases hl : l < 0xE0
      · simp only [step, moved, hc, hl, if_true, hoffset, hstart]
        rfl
      · simp only [step, moved, hc, hl, if_true, if_false, hoffset]
    | leadMid l m =>
      simp only [Held.size] at h
      have hstart : offset + o - 2 = offset - 2 + o := by omega
      simp only [step, moved, hc, if_true, hoffset, hstart]
      rfl

theorem offset_first : (s.first c).offset = s.offset + 1 := by
  unfold first
  split
  · rfl
  · split
    · rfl
    · rfl

theorem offset_step : (s.step c).offset = s.offset + 1 := by
  unfold step
  repeat' split
  all_goals first | exact offset_first | rfl

theorem offset_foldl (b : Bytes) (s : Scan) : (b.foldl step s).offset = s.offset + b.length := by
  induction b generalizing s with
  | nil => rfl
  | cons c b ih => rw [List.foldl_cons, ih, offset_step, List.length_cons, Nat.add_right_comm, Nat.add_assoc]

theorem size_first : (s.first c).held.size ≤ 1 := by
  unfold first
  split
  · exact Nat.zero_le 1
  · split
    · exact Nat.le_refl 1
    · exact Nat.zero_le 1

theorem size_step : (s.step c).held.size ≤ s.held.size + 1 := by
  have hfirst (s : Scan) (n : Nat) : (s.first c).held.size ≤ n + 1 :=
    Nat.le_trans size_first (Nat.le_add_left 1 n)
  cases hc : isContinuation c with
  | false =>
    rw [step_break hc]
    exact hfirst _ _
  | true =>
    obtain ⟨offset, held, items⟩ := s
    cases held with
    | none => simpa only [step, hc, if_true] using hfirst _ _
    | lead l =>
      simp only [step, hc, if_true]
      split
      · exact Nat.zero_le _
      · exact Nat.le_refl _
    | leadMid l m => simp only [step, hc, if_true, Held.size, Nat.zero_le]

theorem foldl_moved (b : Bytes) (h : s.held.size ≤ s.offset) :
    b.foldl step (s.moved o before) = (b.foldl step s).moved o before := by
  induction b generalizing s with
  | nil => rfl
  | cons c b ih =>
    have hsize := size_step (s := s) (c := c)
    have hoffset := offset_step (s := s) (c := c)
    rw [List.foldl_cons, List.foldl_cons, step_moved h, ih (by omega)]

theorem size_foldl (b : Bytes) (h : s.held.size ≤ s.offset) :
    (b.foldl step s).held.size ≤ (b.foldl step s).offset := by
  induction b generalizing s with
  | nil => exact h
  | cons c b ih =>
    have hsize := size_step (s := s) (c := c)
    have hoffset := offset_step (s := s) (c := c)
    exact ih (by omega)

theorem broken_foldl (b : Bytes) (o : Nat) (before : List Item) :
    (b.foldl step ⟨o, .none, before⟩).broken = ((scan b).map (Item.moved o)).reverse ++ before := by
  have hstart : (⟨o, .none, before⟩ : Scan) = ({} : Scan).moved o before := by
    simp only [moved, Nat.zero_add, List.map_nil, List.nil_append]
  rw [hstart, foldl_moved b (Nat.zero_le _), broken_moved (size_foldl b (Nat.zero_le _)), scan, List.map_reverse,
    List.reverse_reverse]

end Scan

/-- Where a byte comes that goes on with no unit, the scan begins anew. -/
theorem scan_append (h : ∀ c rest, b = c :: rest → Scan.isContinuation c = false) :
    scan (a ++ b) = scan a ++ (scan b).map (Item.moved a.length) := by
  have hoffset : (a.foldl Scan.step {}).offset = a.length := by
    rw [Scan.offset_foldl]
    exact Nat.zero_add _
  rw [scan, List.foldl_append, Scan.foldl_broken h, hoffset, Scan.broken_foldl, List.reverse_append,
    List.reverse_reverse]
  rfl

theorem Spells.scan_append (h : Spells us e) (b : Bytes) :
    Modified.scan (e ++ b) = Modified.scan e ++ (Modified.scan b).map (Item.moved e.length) := by
  obtain ⟨ps, -, hscan⟩ := h.foldl_step 0 []
  have hz : ({} : Scan) = ⟨0, .none, []⟩ := rfl
  rw [Modified.scan, List.foldl_append, Modified.scan, hz, hscan, Scan.broken_foldl, List.reverse_append,
    List.reverse_reverse, Nat.zero_add]
  rfl

theorem Form.head (h : Form u form) : ∃ c rest, form = c :: rest ∧ Scan.isContinuation c = false := by
  have hbreak {n : Nat} (hn : n < 0x80 ∨ 0xC0 ≤ n ∧ n < 256) : Scan.isContinuation (UInt8.ofNat n) = false := by
    have hu : (UInt8.ofNat n).toNat = n := toNat_ofNat (by omega)
    refine Bool.eq_false_iff.mpr fun hc => ?_
    have hbounds := isContinuation_bounds hc
    omega
  cases h with
  | one _ hlt => exact ⟨_, _, rfl, hbreak (.inl hlt)⟩
  | two hlt => exact ⟨_, _, rfl, hbreak (.inr (by omega))⟩
  | three hlt => exact ⟨_, _, rfl, hbreak (.inr (by omega))⟩

theorem Spells.head (h : Spells (u :: us) e) : ∃ c rest, e = c :: rest ∧ Scan.isContinuation c = false := by
  cases h with
  | cons hform _ =>
    obtain ⟨c, rest, rfl, hc⟩ := hform.head
    exact ⟨c, rest ++ _, rfl, hc⟩

/-! ## The joining -/

def Glyph.moved (o : Nat) : Glyph → Glyph
  | .char c => .char c
  | .lone start => .lone (start + o)

/-- A unit with its place counted from `o` bytes farther back. -/
def movedUnit (o : Nat) (p : Nat × Nat) : Nat × Nat :=
  (p.1 + o, p.2)

theorem lossyChar_moved (o : Nat) (g : Glyph) : (g.moved o).lossyChar = g.lossyChar := by
  cases g <;> rfl

theorem lossyUnit_moved (o : Nat) (item : Item) : (item.moved o).lossyUnit = movedUnit o item.lossyUnit := by
  cases item <;> rfl

namespace Join

/-- The same joining with `o` more bytes behind it, of which the glyphs `before` were joined. -/
def moved (o : Nat) (before : List Glyph) (j : Join) : Join :=
  ⟨j.high.map (movedUnit o), j.glyphs.map (Glyph.moved o) ++ before⟩

variable {before glyphs : List Glyph} {j : Join} {p : Nat × Nat}

theorem first_moved (start u : Nat) :
    first (glyphs.map (Glyph.moved o) ++ before) (start + o) u = (first glyphs start u).moved o before := by
  unfold first
  split
  · rfl
  · split
    · rfl
    · rfl

theorem step_low {start u at_ high : Nat} (hlow : isLow u = true) (glyphs : List Glyph) :
    step ⟨some (at_, high), glyphs⟩ (start, u) =
      ⟨none, .char (Char.ofNat (0x10000 + 0x400 * (high - 0xD800) + (u - 0xDC00))) :: glyphs⟩ :=
  if_pos hlow

theorem step_break {start u at_ high : Nat} (hlow : isLow u = false) (glyphs : List Glyph) :
    step ⟨some (at_, high), glyphs⟩ (start, u) = first (.lone at_ :: glyphs) start u :=
  if_neg (Bool.eq_false_iff.mp hlow)

theorem step_moved : (j.moved o before).step (movedUnit o p) = (j.step p).moved o before := by
  obtain ⟨high, glyphs⟩ := j
  obtain ⟨start, u⟩ := p
  cases high with
  | none => exact first_moved start u
  | some waiting =>
    cases hlow : isLow u with
    | true =>
      rw [step_low hlow]
      exact step_low hlow _
    | false =>
      rw [step_break hlow, ← first_moved]
      exact step_break hlow _

theorem finish_moved : (j.moved o before).finish = before.reverse ++ j.finish.map (Glyph.moved o) := by
  obtain ⟨high, glyphs⟩ := j
  cases high with
  | none => simp [finish, moved, List.map_reverse]
  | some waiting => simp [finish, moved, List.map_reverse, movedUnit, Glyph.moved]

theorem foldl_moved (us : List (Nat × Nat)) (j : Join) :
    (us.map (movedUnit o)).foldl step (j.moved o before) = (us.foldl step j).moved o before := by
  induction us generalizing j with
  | nil => rfl
  | cons p us ih => rw [List.map_cons, List.foldl_cons, List.foldl_cons, step_moved, ih]

@[simp] theorem finish_foldl (us : List (Nat × Nat)) (before : List Glyph) :
    (us.foldl step ⟨none, before⟩).finish = before.reverse ++ assemble us := by
  have hunits : us.map (movedUnit 0) = us := List.map_id us
  have hglyphs (glyphs : List Glyph) : glyphs.map (Glyph.moved 0) = glyphs :=
    (List.map_congr_left fun g _ => by cases g <;> rfl).trans (List.map_id glyphs)
  have hstart : (⟨none, before⟩ : Join) = ({} : Join).moved 0 before := rfl
  have hmoved : (us.map (movedUnit 0)).foldl step (({} : Join).moved 0 before) = (us.foldl step {}).moved 0 before :=
    foldl_moved us {}
  rw [hunits] at hmoved
  rw [hstart, hmoved, finish_moved, hglyphs, assemble]

theorem foldl_break {us : List (Nat × Nat)} (h : ∀ p rest, us = p :: rest → isLow p.2 = false) (j : Join) :
    (us.foldl step j).finish = (us.foldl step ⟨none, j.finish.reverse⟩).finish := by
  obtain ⟨high, glyphs⟩ := j
  cases high with
  | none => rw [show (⟨none, glyphs⟩ : Join).finish.reverse = glyphs from List.reverse_reverse glyphs]
  | some waiting =>
    rw [show (⟨some waiting, glyphs⟩ : Join).finish.reverse = .lone waiting.1 :: glyphs from List.reverse_reverse _]
    cases us with
    | nil => rfl
    | cons p us =>
      rw [List.foldl_cons, List.foldl_cons, step_break (h p us rfl)]
      rfl

end Join

theorem assemble_moved (o : Nat) (us : List (Nat × Nat)) :
    assemble (us.map (movedUnit o)) = (assemble us).map (Glyph.moved o) := by
  have hstart : ({} : Join) = ({} : Join).moved o [] := rfl
  rw [assemble, hstart, Join.foldl_moved, Join.finish_moved]
  rfl

theorem assemble_append {us vs : List (Nat × Nat)} (h : ∀ p rest, vs = p :: rest → isLow p.2 = false) :
    assemble (us ++ vs) = assemble us ++ assemble vs := by
  rw [assemble, List.foldl_append, Join.foldl_break h, Join.finish_foldl, List.reverse_reverse]
  rfl

theorem assemble_units_append {cs : List Char} {ps : List (Nat × Nat)} (hps : ps.map Prod.snd = cs.flatMap units)
    (vs : List (Nat × Nat)) : assemble (ps ++ vs) = cs.map Glyph.char ++ assemble vs := by
  have hz : ({} : Join) = ⟨none, []⟩ := rfl
  rw [assemble, List.foldl_append, hz, join_chars cs hps, Join.finish_foldl, List.append_nil, List.reverse_reverse]

/-! ## Texts -/

theorem units_head (c : Char) : ∃ u rest, units c = u :: rest ∧ isLow u = false := by
  unfold units
  dsimp only
  split
  · exact ⟨_, _, rfl, (not_surrogate c).2⟩
  · have hc := toNat_lt c
    refine ⟨_, _, rfl, Bool.eq_false_iff.mpr fun hlow => ?_⟩
    have hbounds := isLow_iff.mp hlow
    omega

/-- The units that are read of bytes, with U+FFFD for each defect. -/
def lossyUnits (b : Bytes) : List (Nat × Nat) :=
  (scan b).map Item.lossyUnit

theorem decodeLossy_eq (b : Bytes) :
    decodeLossy b = String.ofList ((assemble (lossyUnits b)).map Glyph.lossyChar) := rfl

theorem lossyUnits_moved (o : Nat) (items : List Item) :
    (items.map (Item.moved o)).map Item.lossyUnit = (items.map Item.lossyUnit).map (movedUnit o) := by
  rw [List.map_map, List.map_map]
  exact List.map_congr_left fun item _ => lossyUnit_moved o item

theorem lossyUnits_ofUnit (ps : List (Nat × Nat)) : (ps.map Item.ofUnit).map Item.lossyUnit = ps := by
  rw [List.map_map]
  exact List.map_id ps

theorem lossyChars_moved (o : Nat) (glyphs : List Glyph) :
    (glyphs.map (Glyph.moved o)).map Glyph.lossyChar = glyphs.map Glyph.lossyChar := by
  rw [List.map_map]
  exact List.map_congr_left fun g _ => lossyChar_moved o g

/-- The units of a text are read of what is written for it, and after them those of what follows. -/
theorem lossyUnits_encode_append (s : String) (b : Bytes) :
    ∃ ps, ps.map Prod.snd = s.toList.flatMap units ∧
      lossyUnits (encode s ++ b) = ps ++ (lossyUnits b).map (movedUnit (encode s).length) := by
  obtain ⟨ps, hps, hscan⟩ := (spells_encode s).scan
  refine ⟨ps, hps, ?_⟩
  rw [lossyUnits, (spells_encode s).scan_append, hscan, List.map_append, lossyUnits_ofUnit, lossyUnits_moved]
  rfl

/-- A text is read as itself, whatever follows it. -/
theorem decodeLossy_encode_append (s : String) (b : Bytes) : decodeLossy (encode s ++ b) = s ++ decodeLossy b := by
  obtain ⟨ps, hps, hunits⟩ := lossyUnits_encode_append s b
  rw [decodeLossy_eq, hunits, assemble_units_append hps, assemble_moved, List.map_append, lossyChars_moved,
    List.map_map, String.ofList_append]
  exact congrArg (· ++ decodeLossy b) ((congrArg String.ofList (List.map_id s.toList)).trans String.ofList_toList)

/-- Before a byte that begins a unit, bytes are read as at the end, unless the unit is a low surrogate. -/
theorem decodeLossy_append (hbyte : ∀ c rest, b = c :: rest → Scan.isContinuation c = false)
    (hunit : ∀ p rest, lossyUnits b = p :: rest → isLow p.2 = false) :
    decodeLossy (a ++ b) = decodeLossy a ++ decodeLossy b := by
  have hmoved : ∀ p rest, (lossyUnits b).map (movedUnit a.length) = p :: rest → isLow p.2 = false := by
    intro p rest hp
    obtain ⟨q, qs, hq, rfl, -⟩ := List.map_eq_cons_iff.mp hp
    exact hunit q qs hq
  have hunits : lossyUnits (a ++ b) = lossyUnits a ++ (lossyUnits b).map (movedUnit a.length) := by
    rw [lossyUnits, scan_append hbyte, List.map_append, lossyUnits_moved]
    rfl
  rw [decodeLossy_eq, hunits, assemble_append hmoved, assemble_moved, List.map_append, lossyChars_moved,
    String.ofList_append]
  rfl

/-- A text that is not empty is read as itself between any bytes, and what stands before and behind it is read
as it is alone. -/
theorem decodeLossy_around {s : String} (hs : s ≠ "") (a b : Bytes) :
    decodeLossy (a ++ encode s ++ b) = decodeLossy a ++ s ++ decodeLossy b := by
  have hlist : s.toList ≠ [] := fun h => hs (String.toList_inj.mp h)
  obtain ⟨c, cs, hcs⟩ := List.exists_cons_of_ne_nil hlist
  obtain ⟨u, us, hu, hlow⟩ := units_head c
  have hunits : s.toList.flatMap units = u :: (us ++ cs.flatMap units) := by
    rw [hcs, List.flatMap_cons, hu, List.cons_append]
  rw [List.append_assoc, decodeLossy_append, decodeLossy_encode_append, String.append_assoc]
  · intro c' rest hbytes
    have hspells := spells_encode s
    rw [hunits] at hspells
    obtain ⟨d, tail, he, hd⟩ := hspells.head
    rw [he] at hbytes
    exact (List.cons.inj hbytes).1 ▸ hd
  · intro p rest hp
    obtain ⟨ps, hps, hlossy⟩ := lossyUnits_encode_append s b
    rw [hunits] at hps
    obtain ⟨q, qs, rfl, rfl, -⟩ := List.map_eq_cons_iff.mp hps
    rw [hlossy] at hp
    obtain rfl := (List.cons.inj hp).1
    exact hlow

/-- One text between the halves of another one, that are apart from each other. -/
theorem decodeLossy_around_halves :
    "😀" ≠ "" ∧
      decodeLossy ([0xED, 0xA0, 0xBD] ++ encode "😀" ++ [0xED, 0xB8, 0x80]) =
        decodeLossy [0xED, 0xA0, 0xBD] ++ "😀" ++ decodeLossy [0xED, 0xB8, 0x80] :=
  have hs : "😀" ≠ "" := by decide
  ⟨hs, decodeLossy_around hs _ _⟩

end SourceLabel.Text.Modified
