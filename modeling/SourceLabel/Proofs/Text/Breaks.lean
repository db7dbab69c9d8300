import SourceLabel.Proofs.Text.Modes

/-!
# Bytes that break off

Bytes break off where nothing that could come instead would make units of them. Until then the scan finds no
defect, and there it finds its first one: every state of a scan without defects can be completed to units, and a
defect that has been found stays. So the strict decoder names that place.
-/
namespace SourceLabel.Text.Modified

variable {b : Bytes} {n : Nat}

/-- With some bytes after them, the bytes spell units. -/
def Begins (b : Bytes) : Prop :=
  ∃ us rest, Spells us (b ++ rest)

/-- The byte at `n` is the first that neither begins a unit nor goes on with one. The end of the bytes counts as
such a byte if a unit is under way there. -/
structure BreaksOff (b : Bytes) (n : Nat) : Prop where
  le_length : n ≤ b.length
  begins : Begins (b.take n)
  stops : n < b.length → ¬ Begins (b.take (n + 1))
  incomplete : ¬ ∃ us, Spells us b

theorem Begins.of_prefix {a b : Bytes} (h : a <+: b) (hb : Begins b) : Begins a := by
  obtain ⟨rest, rfl⟩ := h
  obtain ⟨us, more, hspells⟩ := hb
  exact ⟨us, rest ++ more, by rwa [← List.append_assoc]⟩

theorem BreaksOff.le_of_begins {m : Nat} (h : BreaksOff b n) (hm : m ≤ b.length) (hb : Begins (b.take m)) : m ≤ n := by
  by_contra hlt
  exact h.stops (by omega) (hb.of_prefix (List.take_prefix_take_left (by omega)))

theorem BreaksOff.unique {m : Nat} (h : BreaksOff b n) (h' : BreaksOff b m) : n = m :=
  Nat.le_antisymm (h'.le_of_begins h.le_length h.begins) (h.le_of_begins h'.le_length h'.begins)

namespace Scan

/-- Only units have been found. -/
def Clean (s : Scan) : Prop :=
  ∃ ps : List (Nat × Nat), s.items = (ps.map Item.ofUnit).reverse

variable {s : Scan} {c : UInt8}

theorem Clean.unit (hs : s.Clean) {start u : Nat} {s' : Scan} (h : s'.items = .unit start u :: s.items) : s'.Clean := by
  obtain ⟨ps, hps⟩ := hs
  exact ⟨ps ++ [(start, u)], by simp [h, hps, Item.ofUnit]⟩

theorem Clean.of_items (hs : s.Clean) {s' : Scan} (h : s'.items = s.items) : s'.Clean := by
  obtain ⟨ps, hps⟩ := hs
  exact ⟨ps, h.trans hps⟩

theorem not_clean {start cause : Nat} {more items : List Item} (h : s.items = more ++ .defect start cause :: items) :
    ¬ s.Clean := by
  rintro ⟨ps, hps⟩
  have hmem : .defect start cause ∈ (ps.map Item.ofUnit).reverse := by
    rw [← hps, h]
    exact List.mem_append_right _ List.mem_cons_self
  obtain ⟨p, -, hp⟩ := List.mem_map.mp (List.mem_reverse.mp hmem)
  exact nomatch hp

theorem items_first (s : Scan) (c : UInt8) :
    (s.first c).items = s.items ∨ (∃ u, (s.first c).items = .unit s.offset u :: s.items) ∨
      (s.first c).items = .defect s.offset s.offset :: s.items := by
  unfold first
  split
  · exact .inr (.inl ⟨_, rfl⟩)
  · split
    · exact .inl rfl
    · exact .inr (.inr rfl)

/-- A unit that is broken off is a defect, and the byte that should go on with it is the cause. -/
theorem items_broken (s : Scan) :
    s.held = .none ∧ s.broken = s.items ∨
      s.held ≠ .none ∧ ∃ start more, s.broken = more ++ .defect start s.offset :: s.items := by
  unfold broken
  cases s.held with
  | none => exact .inl ⟨rfl, rfl⟩
  | lead l => exact .inr ⟨nofun, _, [], rfl⟩
  | leadMid l m => exact .inr ⟨nofun, _, [_], rfl⟩

/-- A byte adds no item, or a unit, or it is the cause of the defect that comes next. -/
theorem items_step (s : Scan) (c : UInt8) :
    (s.step c).items = s.items ∨ (∃ start u, (s.step c).items = .unit start u :: s.items) ∨
      ∃ start more, (s.step c).items = more ++ .defect start s.offset :: s.items := by
  have hfirst : ((s.first c).items = s.items ∨ (∃ start u, (s.first c).items = .unit start u :: s.items) ∨
      ∃ start more, (s.first c).items = more ++ .defect start s.offset :: s.items) := by
    rcases s.items_first c with h | ⟨u, h⟩ | h
    · exact .inl h
    · exact .inr (.inl ⟨_, u, h⟩)
    · exact .inr (.inr ⟨_, [], h⟩)
  cases hc : isContinuation c with
  | true =>
    unfold step
    rw [if_pos hc]
    split
    · exact hfirst
    · split
      · exact .inr (.inl ⟨_, _, rfl⟩)
      · exact .inl rfl
    · exact .inr (.inl ⟨_, _, rfl⟩)
  | false =>
    rw [step_break hc]
    rcases s.items_broken with ⟨hheld, hbroken⟩ | ⟨-, start, more, hbroken⟩
    · obtain ⟨offset, held, items⟩ := s
      obtain rfl : held = .none := hheld
      exact hfirst
    · refine .inr (.inr ⟨start, ?_⟩)
      rcases items_first ⟨s.offset, .none, s.broken⟩ c with h | ⟨u, h⟩ | h
      · exact ⟨more, by rw [h, hbroken]⟩
      · exact ⟨.unit s.offset u :: more, by rw [h, hbroken]; rfl⟩
      · exact ⟨.defect s.offset s.offset :: more, by rw [h, hbroken]; rfl⟩

theorem items_foldl (b : Bytes) (s : Scan) : ∃ more, (b.foldl step s).broken = more ++ s.items := by
  induction b generalizing s with
  | nil =>
    rcases s.items_broken with ⟨-, h⟩ | ⟨-, start, more, h⟩
    · exact ⟨[], h⟩
    · exact ⟨more ++ [.defect start s.offset], by rw [List.foldl_nil, h, List.append_assoc]; rfl⟩
  | cons c b ih =>
    obtain ⟨more, hmore⟩ := ih (s.step c)
    rw [List.foldl_cons, hmore]
    rcases s.items_step c with h | ⟨start, u, h⟩ | ⟨start, more', h⟩
    · exact ⟨more, by rw [h]⟩
    · exact ⟨more ++ [.unit start u], by rw [h, List.append_assoc]; rfl⟩
    · exact ⟨more ++ (more' ++ [.defect start s.offset]), by rw [h]; simp⟩

theorem Clean.completion (hs : s.Clean) :
    ∃ rest : Bytes, (rest.foldl step s).held = .none ∧ (rest.foldl step s).Clean := by
  have hc : isContinuation 0x80 = true := by decide
  have hmid (offset : Nat) (l m : UInt8) (items : List Item) :
      ∃ u, Scan.step ⟨offset, .leadMid l m, items⟩ 0x80 = ⟨offset + 1, .none, .unit (offset - 2) u :: items⟩ :=
    ⟨_, if_pos hc⟩
  obtain ⟨offset, held, items⟩ := s
  cases held with
  | none => exact ⟨[], rfl, hs⟩
  | lead l =>
    rcases UInt8.lt_or_le l 0xE0 with hl | hl
    · refine ⟨[0x80], ?_⟩
      simp only [List.foldl_cons, List.foldl_nil, step, hc, hl, if_true]
      exact ⟨trivial, hs.unit rfl⟩
    · have hstep : Scan.step ⟨offset, .lead l, items⟩ 0x80 = ⟨offset + 1, .leadMid l 0x80, items⟩ := by
        simp only [step, hc, UInt8.not_lt.mpr hl, if_true, if_false]
      obtain ⟨u, hlast⟩ := hmid (offset + 1) l 0x80 items
      refine ⟨[0x80, 0x80], ?_⟩
      rw [List.foldl_cons, hstep, List.foldl_cons, hlast]
      exact ⟨rfl, hs.unit rfl⟩
  | leadMid l m =>
    obtain ⟨u, hlast⟩ := hmid offset l m items
    refine ⟨[0x80], ?_⟩
    rw [List.foldl_cons, hlast]
    exact ⟨rfl, hs.unit rfl⟩

/-- A scan without defects goes on without any, or finds the first one where its cause is. -/
theorem Clean.foldl (hs : s.Clean) (b : Bytes) :
    (b.foldl Scan.step s).Clean ∨
      ∃ n start more, n < b.length ∧ ((b.take n).foldl Scan.step s).Clean ∧
        ¬ ((b.take (n + 1)).foldl Scan.step s).Clean ∧
        (b.foldl Scan.step s).broken =
          more ++ .defect start (s.offset + n) :: ((b.take n).foldl Scan.step s).items := by
  induction b generalizing s with
  | nil => exact .inl hs
  | cons c b ih =>
    rcases s.items_step c with h | ⟨start, u, h⟩ | ⟨start, more, h⟩
    case inr.inr =>
      obtain ⟨more', hmore⟩ := items_foldl b (s.step c)
      refine .inr ⟨0, start, more' ++ more, Nat.zero_lt_succ _, hs, not_clean h, ?_⟩
      rw [List.foldl_cons, hmore, h, List.append_assoc]
      rfl
    all_goals
      have hstep : (s.step c).Clean := by first | exact hs.of_items h | exact hs.unit h
      rcases ih hstep with hclean | ⟨n, start', more, hn, hbefore, hat, hbroken⟩
      · exact .inl hclean
      · rw [offset_step, Nat.add_right_comm, Nat.add_assoc] at hbroken
        exact .inr ⟨n + 1, start', more, Nat.succ_lt_succ hn, hbefore, hat, hbroken⟩

end Scan

theorem clean_start : ({} : Scan).Clean :=
  ⟨[], rfl⟩

theorem begins_iff_clean : Begins b ↔ (b.foldl Scan.step {}).Clean := by
  constructor
  · rintro ⟨us, rest, hspells⟩
    obtain ⟨ps, -, hscan⟩ := hspells.scan
    obtain ⟨more, hmore⟩ := Scan.items_foldl rest (b.foldl Scan.step {})
    rw [scan, List.foldl_append, hmore, List.reverse_append] at hscan
    obtain ⟨front, back, -, hfront, -⟩ := List.map_eq_append_iff.mp hscan.symm
    exact ⟨front, by rw [hfront, List.reverse_reverse]⟩
  · intro h
    obtain ⟨rest, hheld, ps, hps⟩ := h.completion
    refine ⟨ps.map Prod.snd, rest, ?_⟩
    have hscan : scan (b ++ rest) = ps.map Item.ofUnit := by
      rcases Scan.items_broken (rest.foldl Scan.step (b.foldl Scan.step {})) with ⟨-, hbroken⟩ | ⟨hne, -⟩
      · rw [scan, List.foldl_append, hbroken, hps, List.reverse_reverse]
      · exact absurd hheld hne
    exact (hscan ▸ cut_scan (b ++ rest)).spells

theorem strictUnits_of_broken {more : List Item} {s : Scan} (hs : s.Clean) {start : Nat}
    (h : (b.foldl Scan.step {}).broken = more ++ .defect start n :: s.items) :
    strictUnits (scan b) = .error ⟨n⟩ := by
  obtain ⟨ps, hps⟩ := hs
  refine strictUnits_eq_error_iff.mpr ⟨ps, start, more.reverse, ?_⟩
  rw [scan, h, hps, List.reverse_append, List.reverse_cons, List.reverse_reverse, List.append_assoc]
  rfl

theorem strictUnits_scan (b : Bytes) :
    (∃ ps, strictUnits (scan b) = .ok ps) ∨ ∃ n, strictUnits (scan b) = .error ⟨n⟩ ∧ BreaksOff b n := by
  have hincomplete {n : Nat} (h : strictUnits (scan b) = .error ⟨n⟩) : ¬ ∃ us, Spells us b := by
    rintro ⟨us, hspells⟩
    obtain ⟨ps, -, hscan⟩ := hspells.scan
    exact nomatch (strictUnits_eq_ok_iff.mpr hscan).symm.trans h
  have hoffset : (b.foldl Scan.step {}).offset = b.length := (Scan.offset_foldl b {}).trans (Nat.zero_add _)
  rcases clean_start.foldl b with hclean | ⟨n, start, more, hn, hbefore, hat, hbroken⟩
  · rcases (b.foldl Scan.step {}).items_broken with ⟨-, hbroken⟩ | ⟨-, start, more, hbroken⟩
    · obtain ⟨ps, hps⟩ := hclean
      refine .inl ⟨ps, strictUnits_eq_ok_iff.mpr ?_⟩
      rw [scan, hbroken, hps, List.reverse_reverse]
    · rw [hoffset] at hbroken
      have herror := strictUnits_of_broken hclean hbroken
      refine .inr ⟨b.length, herror, Nat.le_refl _, ?_, fun h => absurd h (Nat.lt_irrefl _), hincomplete herror⟩
      rwa [List.take_length, begins_iff_clean]
  · rw [show ({} : Scan).offset = 0 from rfl, Nat.zero_add] at hbroken
    have herror := strictUnits_of_broken hbefore hbroken
    exact .inr ⟨n, herror, Nat.le_of_lt hn, begins_iff_clean.mpr hbefore, fun _ => mt begins_iff_clean.mp hat,
      hincomplete herror⟩

theorem strictUnits_scan_eq_error_iff : strictUnits (scan b) = .error ⟨n⟩ ↔ BreaksOff b n := by
  rcases strictUnits_scan b with ⟨ps, hps⟩ | ⟨m, hm, hbreaks⟩
  · rw [hps]
    refine iff_of_false nofun fun h => h.incomplete ⟨ps.map Prod.snd, ?_⟩
    exact (strictUnits_eq_ok_iff.mp hps ▸ cut_scan b).spells
  · rw [hm]
    constructor
    · intro h
      obtain rfl := Defect.mk.inj (Except.error.inj h)
      exact hbreaks
    · intro h
      rw [hbreaks.unique h]

end SourceLabel.Text.Modified
