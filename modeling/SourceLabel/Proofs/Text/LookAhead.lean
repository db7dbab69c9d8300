import SourceLabel.Proofs.Result
import SourceLabel.Proofs.Text.Modified

/-!
# Modified UTF-8 with a look ahead

The scan and the joining of surrogates read their input once, and hold back what they cannot decide yet. The
same is described here with a look at what comes next: at each place there is a unit of one to three bytes or
a defect of one byte, and then a pair of surrogates, a character or a surrogate that stands alone. A loop that
goes through the input by places can be compared with this description.
-/
namespace SourceLabel.Text.Modified

/-! ## Units -/

/-- What the byte at `i` adds to a unit, or else the place where such a byte is missing. -/
def continuationAt (b : Bytes) (i : Nat) : Except Nat Nat :=
  match b[i]? with
  | some c => if Scan.isContinuation c then .ok (c.toNat - 0x80) else .error i
  | none => .error i

/-- The unit that begins at `i` with the byte `a`, or the place that is the cause why there is none, and how
many bytes the unit takes. -/
def unitAt (b : Bytes) (i : Nat) (a : UInt8) : Except Nat Nat × Nat :=
  if 0 < a ∧ a < 0x80 then (.ok a.toNat, 1)
  else if 0xC0 ≤ a ∧ a < 0xE0 then
    (do
      let m ← continuationAt b (i + 1)
      return 64 * (a.toNat - 0xC0) + m, 2)
  else if 0xE0 ≤ a ∧ a < 0xF0 then
    (do
      let m ← continuationAt b (i + 1)
      let k ← continuationAt b (i + 2)
      return 4096 * (a.toNat - 0xE0) + 64 * m + k, 3)
  else (.error i, 1)

/-- From `i` on, the bytes are cut into these items. -/
inductive Cut (b : Bytes) : Nat → List Item → Prop
  | done {i : Nat} : b.length ≤ i → Cut b i []
  | unit {i u n : Nat} {a : UInt8} {items : List Item} : b[i]? = some a → unitAt b i a = (.ok u, n) →
      Cut b (i + n) items → Cut b i (.unit i u :: items)
  | defect {i cause n : Nat} {a : UInt8} {items : List Item} : b[i]? = some a →
      unitAt b i a = (.error cause, n) → Cut b (i + 1) items → Cut b i (.defect i cause :: items)

/-- A byte that does not go on with the unit under way ends it, as the end of the input does. -/
theorem Scan.foldl_broken {b : Bytes} (h : ∀ c rest, b = c :: rest → isContinuation c = false) (s : Scan) :
    (b.foldl step s).broken = (b.foldl step ⟨s.offset, .none, s.broken⟩).broken := by
  cases b with
  | nil => rfl
  | cons c rest =>
    have hc := h c rest rfl
    rw [List.foldl_cons, List.foldl_cons, step_none]
    simp only [step, hc, Bool.false_eq_true, if_false]

variable {b : Bytes} {i : Nat} {a m k : UInt8} {items : List Item}

theorem continuationAt_of_drop {rest : Bytes} (h : b.drop i = m :: rest) :
    continuationAt b i = if Scan.isContinuation m then .ok (m.toNat - 0x80) else .error i := by
  have hget : b[i]? = some m := by rw [← List.head?_drop, h, List.head?_cons]
  rw [continuationAt, hget]

theorem continuationAt_of_not (h : ∀ c rest, b.drop i = c :: rest → Scan.isContinuation c = false) :
    continuationAt b i = .error i := by
  cases hdrop : b.drop i with
  | nil =>
    have hget : b[i]? = none := by rw [← List.head?_drop, hdrop, List.head?_nil]
    rw [continuationAt, hget]
  | cons c rest =>
    rw [continuationAt_of_drop hdrop, h c rest hdrop]
    rfl

theorem drop_succ_of_drop {rest : Bytes} (h : b.drop i = a :: rest) : b.drop (i + 1) = rest := by
  rw [← List.drop_drop, h]
  rfl

theorem continuationAt_lt {n : Nat} (h : continuationAt b i = .ok n) : n < 64 := by
  unfold continuationAt at h
  split at h
  · next c _ =>
    split at h
    · next hc =>
      simp only [Scan.isContinuation, Bool.and_eq_true, decide_eq_true_eq, UInt8.lt_iff_toNat_lt,
        UInt8.le_iff_toNat_le, UInt8.reduceToNat] at hc
      rw [← Except.ok.inj h]
      omega
    · cases h
  · cases h

theorem unitAt_length {r : Except Nat Nat} {n : Nat} (h : unitAt b i a = (r, n)) : 1 ≤ n ∧ n ≤ 3 := by
  unfold unitAt at h
  repeat' split at h
  all_goals
    obtain ⟨-, rfl⟩ := Prod.mk.inj h
    decide

theorem unitAt_lt {u n : Nat} (h : unitAt b i a = (.ok u, n)) : u < 65536 := by
  have ha := a.toNat_lt
  unfold unitAt at h
  split at h
  · obtain ⟨hu, -⟩ := Prod.mk.inj h
    rw [← Except.ok.inj hu]
    omega
  split at h
  · next htwo =>
    simp only [UInt8.lt_iff_toNat_lt, UInt8.le_iff_toNat_le, UInt8.reduceToNat] at htwo
    obtain ⟨m, hm, hu⟩ := Result.bind_eq_ok.mp (Prod.mk.inj h).1
    have hlt := continuationAt_lt hm
    rw [← Except.ok.inj hu]
    omega
  split at h
  · next hthree =>
    simp only [UInt8.lt_iff_toNat_lt, UInt8.le_iff_toNat_le, UInt8.reduceToNat] at hthree
    obtain ⟨m, hm, hu⟩ := Result.bind_eq_ok.mp (Prod.mk.inj h).1
    obtain ⟨k, hk, hu⟩ := Result.bind_eq_ok.mp hu
    have hlt := continuationAt_lt hm
    have hlt' := continuationAt_lt hk
    rw [← Except.ok.inj hu]
    omega
  · exact nomatch (Prod.mk.inj h).1

/-- The scan gives the items from `i` on and no others, after those that it has. -/
def Scanned (b : Bytes) (i : Nat) (items : List Item) (s : Scan) : Prop :=
  ∃ more, s.broken = more.reverse ++ items ∧ Cut b i more

theorem Scanned.unit {s : Scan} {u n : Nat} (hget : b[i]? = some a) (hunit : unitAt b i a = (.ok u, n))
    (h : Scanned b (i + n) (.unit i u :: items) s) : Scanned b i items s := by
  obtain ⟨more, hs, hcut⟩ := h
  exact ⟨.unit i u :: more, by simp [hs], .unit hget hunit hcut⟩

theorem Scanned.defect {s : Scan} {cause n : Nat} (hget : b[i]? = some a)
    (hunit : unitAt b i a = (.error cause, n)) (h : Scanned b (i + 1) (.defect i cause :: items) s) :
    Scanned b i items s := by
  obtain ⟨more, hs, hcut⟩ := h
  exact ⟨.defect i cause :: more, by simp [hs], .defect hget hunit hcut⟩

theorem Scanned.resume {j : Nat} {s : Scan} (hs : s.offset = j)
    (hbreak : ∀ c rest, b.drop j = c :: rest → Scan.isContinuation c = false)
    (h : Scanned b i items ((b.drop j).foldl Scan.step ⟨j, .none, s.broken⟩)) :
    Scanned b i items ((b.drop j).foldl Scan.step s) := by
  obtain ⟨more, hmore, hcut⟩ := h
  refine ⟨more, ?_, hcut⟩
  rw [Scan.foldl_broken hbreak, hs, hmore]

theorem Scan.first_lead_of_le {offset : Nat} (ha : 0xC0 ≤ a ∧ a < 0xF0) :
    Scan.first ⟨offset, .none, items⟩ a = ⟨offset + 1, .lead a, items⟩ := by
  have hascii : ¬ (0 < a ∧ a < 0x80) := by
    simp only [UInt8.lt_iff_toNat_lt, UInt8.le_iff_toNat_le, UInt8.reduceToNat] at ha ⊢
    omega
  rw [first, if_neg hascii, if_pos ha]

theorem continuation_or_break (b : Bytes) (j : Nat) :
    (∃ m, b[j]? = some m ∧ b.drop j = m :: b.drop (j + 1) ∧ Scan.isContinuation m = true ∧
        continuationAt b j = .ok (m.toNat - 0x80)) ∨
      (∀ c rest, b.drop j = c :: rest → Scan.isContinuation c = false) ∧ continuationAt b j = .error j := by
  cases hdrop : b.drop j with
  | nil => exact .inr ⟨nofun, continuationAt_of_not (by rw [hdrop]; exact nofun)⟩
  | cons m rest =>
    have hget : b[j]? = some m := by rw [← List.head?_drop, hdrop, List.head?_cons]
    have hat := continuationAt_of_drop hdrop
    obtain rfl := drop_succ_of_drop hdrop
    cases hm : Scan.isContinuation m with
    | true => exact .inl ⟨m, hget, rfl, hm, by rw [hat, if_pos hm]⟩
    | false =>
      refine .inr ⟨fun c rest h => ?_, by rw [hat, hm]; rfl⟩
      obtain ⟨rfl, -⟩ := List.cons.inj h
      exact hm

theorem unitAt_continuation (hm : Scan.isContinuation m = true) (b : Bytes) (j : Nat) :
    unitAt b j m = (.error j, 1) := by
  simp only [Scan.isContinuation, Bool.and_eq_true, decide_eq_true_eq, UInt8.lt_iff_toNat_lt,
    UInt8.le_iff_toNat_le, UInt8.reduceToNat] at hm
  have hascii : ¬ (0 < m ∧ m < 0x80) := by
    simp only [UInt8.lt_iff_toNat_lt, UInt8.reduceToNat]
    omega
  have htwo : ¬ (0xC0 ≤ m ∧ m < 0xE0) := by
    simp only [UInt8.lt_iff_toNat_lt, UInt8.le_iff_toNat_le, UInt8.reduceToNat]
    omega
  have hthree : ¬ (0xE0 ≤ m ∧ m < 0xF0) := by
    simp only [UInt8.lt_iff_toNat_lt, UInt8.le_iff_toNat_le, UInt8.reduceToNat]
    omega
  simp only [unitAt, hascii, htwo, hthree, if_false]

section Leads

variable (hget : b[i]? = some a)
  (later : ∀ j items, i < j → Scanned b j items ((b.drop j).foldl Scan.step ⟨j, .none, items⟩))
include hget later

theorem scanned_two (ha : 0xC0 ≤ a ∧ a < 0xE0) :
    Scanned b i items ((b.drop (i + 1)).foldl Scan.step ⟨i + 1, .lead a, items⟩) := by
  have hascii : ¬ (0 < a ∧ a < 0x80) := by
    simp only [UInt8.lt_iff_toNat_lt, UInt8.le_iff_toNat_le, UInt8.reduceToNat] at ha ⊢
    omega
  rcases continuation_or_break b (i + 1) with ⟨m, -, hdrop, hm, hat⟩ | ⟨hbreak, hat⟩
  · have hunit : unitAt b i a = (.ok (64 * (a.toNat - 0xC0) + (m.toNat - 0x80)), 2) := by
      rw [unitAt, if_neg hascii, if_pos ha, hat]
      rfl
    have hstep : Scan.step ⟨i + 1, .lead a, items⟩ m =
        ⟨i + 2, .none, .unit i (64 * (a.toNat - 0xC0) + (m.toNat - 0x80)) :: items⟩ := by
      simp only [Scan.step, hm, ha.2, if_true]
      rfl
    rw [hdrop, List.foldl_cons, hstep]
    exact .unit hget hunit (later _ _ (by omega))
  · have hunit : unitAt b i a = (.error (i + 1), 2) := by
      rw [unitAt, if_neg hascii, if_pos ha, hat]
      rfl
    exact .resume rfl hbreak (.defect hget hunit (later _ _ (by omega)))

/-- A unit of three bytes, or a defect where one of them is missing. If it is the third, the second byte is a
defect too. -/
theorem scanned_three (ha : 0xE0 ≤ a ∧ a < 0xF0) :
    Scanned b i items ((b.drop (i + 1)).foldl Scan.step ⟨i + 1, .lead a, items⟩) := by
  have hascii : ¬ (0 < a ∧ a < 0x80) := by
    simp only [UInt8.lt_iff_toNat_lt, UInt8.le_iff_toNat_le, UInt8.reduceToNat] at ha ⊢
    omega
  have htwo : ¬ a < 0xE0 := UInt8.not_lt.mpr ha.1
  have hunit : unitAt b i a = (do
      let m ← continuationAt b (i + 1)
      let k ← continuationAt b (i + 2)
      return 4096 * (a.toNat - 0xE0) + 64 * m + k, 3) := by
    rw [unitAt, if_neg hascii, if_neg fun h => htwo h.2, if_pos ha]
  rcases continuation_or_break b (i + 1) with ⟨m, hsecond, hdrop, hm, hat⟩ | ⟨hbreak, hat⟩
  case inr =>
    rw [hat] at hunit
    exact .resume rfl hbreak (.defect hget hunit (later _ _ (by omega)))
  have hstep : Scan.step ⟨i + 1, .lead a, items⟩ m = ⟨i + 2, .leadMid a m, items⟩ := by
    simp only [Scan.step, hm, htwo, if_true, if_false]
  rw [hdrop, List.foldl_cons, hstep]
  rcases continuation_or_break b (i + 2) with ⟨k, -, hdrop', hk, hat'⟩ | ⟨hbreak, hat'⟩
  · have hstep' : Scan.step ⟨i + 2, .leadMid a m, items⟩ k = ⟨i + 3, .none,
        .unit i (4096 * (a.toNat - 0xE0) + 64 * (m.toNat - 0x80) + (k.toNat - 0x80)) :: items⟩ := by
      simp only [Scan.step, hk, if_true]
      rfl
    rw [hat, hat'] at hunit
    rw [hdrop', List.foldl_cons, hstep']
    exact .unit hget hunit (later _ _ (by omega))
  · rw [hat, hat'] at hunit
    exact .resume rfl hbreak (.defect hget hunit
      (.defect hsecond (unitAt_continuation hm b (i + 1)) (later _ _ (by omega))))

end Leads

theorem scanned_foldl (b : Bytes) (i : Nat) (items : List Item) :
    Scanned b i items ((b.drop i).foldl Scan.step ⟨i, .none, items⟩) := by
  generalize hn : b.length - i = n
  induction n using Nat.strongRecOn generalizing i items with
  | ind n ih =>
    cases hdrop : b.drop i with
    | nil => exact ⟨[], rfl, .done (List.drop_eq_nil_iff.mp hdrop)⟩
    | cons a rest =>
      have hget : b[i]? = some a := by rw [← List.head?_drop, hdrop, List.head?_cons]
      have hi : i < b.length := (List.getElem?_eq_some_iff.mp hget).1
      have later : ∀ j items, i < j → Scanned b j items ((b.drop j).foldl Scan.step ⟨j, .none, items⟩) :=
        fun j items hj => ih (b.length - j) (by omega) j items rfl
      obtain rfl := drop_succ_of_drop hdrop
      rw [List.foldl_cons, Scan.step_none]
      by_cases hascii : 0 < a ∧ a < 0x80
      · rw [Scan.first, if_pos hascii]
        exact .unit hget (if_pos hascii) (later _ _ (Nat.lt_succ_self i))
      by_cases hlead : 0xC0 ≤ a ∧ a < 0xF0
      · rw [Scan.first_lead_of_le hlead]
        rcases UInt8.lt_or_le a 0xE0 with hlt | hle
        · exact scanned_two hget later ⟨hlead.1, hlt⟩
        · exact scanned_three hget later ⟨hle, hlead.2⟩
      · have hunit : unitAt b i a = (.error i, 1) := by
          rw [unitAt, if_neg hascii, if_neg fun h => hlead ⟨h.1, UInt8.lt_trans h.2 (by decide)⟩,
            if_neg fun h => hlead ⟨UInt8.le_trans (by decide) h.1, h.2⟩]
        rw [Scan.first, if_neg hascii, if_neg hlead]
        exact .defect hget hunit (later _ _ (Nat.lt_succ_self i))

theorem cut_scan (b : Bytes) : Cut b 0 (scan b) := by
  obtain ⟨more, hs, hcut⟩ := scanned_foldl b 0 []
  have hscan : scan b = more := by
    rw [scan, ← List.reverse_reverse more]
    exact congrArg List.reverse (hs.trans (List.append_nil _))
  rw [hscan]
  exact hcut

theorem Cut.length_le (h : Cut b i items) : items.length ≤ b.length - i := by
  induction h with
  | done => exact Nat.zero_le _
  | @unit i u n a items hget hunit _ ih =>
    have hi := (List.getElem?_eq_some_iff.mp hget).1
    have hn := unitAt_length hunit
    rw [List.length_cons]
    omega
  | defect hget _ _ ih =>
    have hi := (List.getElem?_eq_some_iff.mp hget).1
    rw [List.length_cons]
    omega

theorem Cut.unit_lt (h : Cut b i items) : ∀ p ∈ items.map Item.lossyUnit, p.2 < 65536 := by
  induction h with
  | done => exact nofun
  | unit _ hunit _ ih => exact List.forall_mem_cons.mpr ⟨unitAt_lt hunit, ih⟩
  | defect _ _ _ ih => exact List.forall_mem_cons.mpr ⟨(by decide : 0xFFFD < 65536), ih⟩

/-! ## Characters -/

/-- The character or lone surrogate that begins with the unit `u` at position `k`, and how many units it takes. -/
def glyphAt (us : List (Nat × Nat)) (k start u : Nat) : Glyph × Nat :=
  if isHigh u then
    match us[k + 1]? with
    | some (_, low) =>
      if isLow low then (.char (Char.ofNat (0x10000 + 0x400 * (u - 0xD800) + (low - 0xDC00))), 2)
      else (.lone start, 1)
    | none => (.lone start, 1)
  else if isLow u then (.lone start, 1)
  else (.char (Char.ofNat u), 1)

/-- From `k` on, the units are joined into these characters and lone surrogates. -/
inductive Joins (us : List (Nat × Nat)) : Nat → List Glyph → Prop
  | done {k : Nat} : us.length ≤ k → Joins us k []
  | glyph {k start u n : Nat} {g : Glyph} {glyphs : List Glyph} : us[k]? = some (start, u) →
      glyphAt us k start u = (g, n) → Joins us (k + n) glyphs → Joins us k (g :: glyphs)

/-- The joining gives what is joined from `k` on and nothing else, after what it has. -/
def Joined (us : List (Nat × Nat)) (k : Nat) (before : List Glyph) (j : Join) : Prop :=
  ∃ more, j.finish = before.reverse ++ more ∧ Joins us k more

variable {us : List (Nat × Nat)} {k start u : Nat} {before : List Glyph}

theorem start_of_lone {place n : Nat} (h : glyphAt us k start u = (.lone place, n)) : place = start := by
  unfold glyphAt at h
  repeat' split at h
  all_goals
    obtain ⟨h, -⟩ := Prod.mk.inj h
    first | exact (Glyph.lone.inj h).symm | exact nomatch h

theorem glyphAt_length {g : Glyph} {n : Nat} (h : glyphAt us k start u = (g, n)) : 1 ≤ n ∧ n ≤ 2 := by
  unfold glyphAt at h
  repeat' split at h
  all_goals
    obtain ⟨-, rfl⟩ := Prod.mk.inj h
    decide

theorem Joined.glyph {j : Join} {g : Glyph} {n : Nat} (hget : us[k]? = some (start, u))
    (hglyph : glyphAt us k start u = (g, n)) (h : Joined us (k + n) (g :: before) j) : Joined us k before j := by
  obtain ⟨more, hj, hjoins⟩ := h
  exact ⟨g :: more, by simp [hj], .glyph hget hglyph hjoins⟩

/-- A high surrogate joins with a low one behind it, and stands alone before anything else. -/
theorem joined_high (hget : us[k]? = some (start, u)) (hhigh : isHigh u = true)
    (later : ∀ j before, k < j → Joined us j before ((us.drop j).foldl Join.step ⟨none, before⟩)) :
    Joined us k before ((us.drop (k + 1)).foldl Join.step ⟨some (start, u), before⟩) := by
  cases hdrop : us.drop (k + 1) with
  | nil =>
    have hlength := List.drop_eq_nil_iff.mp hdrop
    have hnone : us[k + 1]? = none := List.getElem?_eq_none_iff.mpr hlength
    have hglyph : glyphAt us k start u = (.lone start, 1) := by simp only [glyphAt, hhigh, hnone, if_true]
    exact .glyph hget hglyph ⟨[], (List.append_nil _).symm, .done hlength⟩
  | cons next rest =>
    obtain ⟨place, low⟩ := next
    have hnext : us[k + 1]? = some (place, low) := by rw [← List.head?_drop, hdrop, List.head?_cons]
    have hrest : us.drop (k + 1 + 1) = rest := by rw [← List.drop_drop, hdrop, List.drop_one, List.tail_cons]
    cases hlow : isLow low with
    | true =>
      have hglyph : glyphAt us k start u =
          (.char (Char.ofNat (0x10000 + 0x400 * (u - 0xD800) + (low - 0xDC00))), 2) := by
        simp only [glyphAt, hhigh, hnext, hlow, if_true]
      have hstep : Join.step ⟨some (start, u), before⟩ (place, low) =
          ⟨none, .char (Char.ofNat (0x10000 + 0x400 * (u - 0xD800) + (low - 0xDC00))) :: before⟩ := by
        simp only [Join.step, hlow, if_true]
      rw [List.foldl_cons, hstep, ← hrest]
      exact .glyph hget hglyph (later _ _ (by omega))
    | false =>
      have hglyph : glyphAt us k start u = (.lone start, 1) := by
        simp only [glyphAt, hhigh, hnext, hlow, if_true, Bool.false_eq_true, if_false]
      have hstep : Join.step ⟨some (start, u), before⟩ (place, low) =
          Join.step ⟨none, .lone start :: before⟩ (place, low) := by
        simp only [Join.step, hlow, Bool.false_eq_true, if_false]
      rw [List.foldl_cons, hstep, ← List.foldl_cons, ← hdrop]
      exact .glyph hget hglyph (later _ _ (by omega))

theorem joined_foldl (us : List (Nat × Nat)) (k : Nat) (before : List Glyph) :
    Joined us k before ((us.drop k).foldl Join.step ⟨none, before⟩) := by
  generalize hn : us.length - k = n
  induction n using Nat.strongRecOn generalizing k before with
  | ind n ih =>
    cases hdrop : us.drop k with
    | nil => exact ⟨[], (List.append_nil _).symm, .done (List.drop_eq_nil_iff.mp hdrop)⟩
    | cons first rest =>
      obtain ⟨start, u⟩ := first
      have hget : us[k]? = some (start, u) := by rw [← List.head?_drop, hdrop, List.head?_cons]
      have hk : k < us.length := (List.getElem?_eq_some_iff.mp hget).1
      have later : ∀ j before, k < j → Joined us j before ((us.drop j).foldl Join.step ⟨none, before⟩) :=
        fun j before hj => ih (us.length - j) (by omega) j before rfl
      have hrest : us.drop (k + 1) = rest := by rw [← List.drop_drop, hdrop, List.drop_one, List.tail_cons]
      rw [List.foldl_cons, ← hrest]
      simp only [Join.step, Join.first]
      cases hhigh : isHigh u with
      | true => exact joined_high hget hhigh later
      | false =>
        cases hlow : isLow u with
        | true => exact .glyph hget (by simp [glyphAt, hhigh, hlow]) (later _ _ (Nat.lt_succ_self k))
        | false => exact .glyph hget (by simp [glyphAt, hhigh, hlow]) (later _ _ (Nat.lt_succ_self k))

theorem joins_assemble (us : List (Nat × Nat)) : Joins us 0 (assemble us) := by
  obtain ⟨more, hj, hjoins⟩ := joined_foldl us 0 []
  rw [assemble, show us.foldl Join.step {} = (us.drop 0).foldl Join.step ⟨none, []⟩ from rfl, hj]
  exact hjoins

end SourceLabel.Text.Modified
