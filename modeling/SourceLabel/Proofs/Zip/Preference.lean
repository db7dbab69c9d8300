import SourceLabel.Proofs.Zip.Finding

/-!
# Which record is taken

Any bytes can look like an end record, the comment of the record that is meant among them. The search passes
over the tail once and remembers two positions. What it remembers is the last record whose comment ends with
the tail, and the last one whose comment ends before that, among all that begin at the positions passed so
far. So the record that is found in the end can be told from the bytes alone: it is written as it was found, no
later one ends with the tail, and one that does not end with the tail is taken only if no other does.
-/
namespace SourceLabel.Zip

namespace EndFields

theorem read?_eq_some_iff {b rest : Bytes} {f : EndFields} :
    read? b = some (signature, f, rest) ↔ b = f.toBytes ++ rest := by
  constructor
  · intro h
    unfold read? at h
    repeat
      first | rw [Bytes.bind_take16?_eq_some] at h | rw [Bytes.bind_take32?_eq_some] at h
      obtain ⟨_, _, rfl, h⟩ := h
    obtain ⟨rfl, hfields⟩ := Prod.mk.inj (Option.some.inj h)
    obtain ⟨rfl, rfl⟩ := Prod.mk.inj hfields
    simp only [toBytes, List.append_assoc]
  · rintro rfl
    exact read?_toBytes f rest

end EndFields

namespace EndRecord

variable {tail : Bytes} {pos stop start recordStart : Nat} {r : EndRecord}

/-- A record begins at `pos`, and going by its length its comment ends at `stop`. -/
def Spans (tail : Bytes) (pos stop : Nat) : Prop :=
  ∃ f : EndFields, ∃ rest, tail.drop pos = f.toBytes ++ rest ∧
    stop = pos + EndFields.length + f.commentLength.toNat

theorem Spans.lt (h : Spans tail pos stop) : pos < tail.length := by
  obtain ⟨f, rest, hdrop, -⟩ := h
  have hlength := congrArg List.length hdrop
  have hfixed : EndFields.length = 22 := rfl
  rw [List.length_drop, List.length_append, EndFields.length_toBytes] at hlength
  omega

theorem Spans.unique {stop' : Nat} (h : Spans tail pos stop) (h' : Spans tail pos stop') : stop = stop' := by
  obtain ⟨f, rest, hdrop, rfl⟩ := h
  obtain ⟨f', rest', hdrop', rfl⟩ := h'
  have hread := EndFields.read?_eq_some_iff.mpr hdrop
  rw [EndFields.read?_eq_some_iff.mpr hdrop', Option.some.injEq, Prod.mk.injEq, Prod.mk.injEq] at hread
  rw [hread.2.1]

/-- The comment ends before the tail does. -/
def EndsInside (tail : Bytes) (pos : Nat) : Prop :=
  ∃ stop, stop < tail.length ∧ Spans tail pos stop

theorem EndsInside.lt (h : EndsInside tail pos) : pos < tail.length := by
  obtain ⟨stop, -, hspans⟩ := h
  exact hspans.lt

/-! ## The last position -/

/-- The last position with a property, if there is any. -/
def Latest (P : Nat → Prop) : Option Nat → Prop
  | none => ∀ pos, ¬ P pos
  | some pos => P pos ∧ ∀ later, pos < later → ¬ P later

variable {P : Nat → Prop} {last : Option Nat} {n : Nat}

theorem Latest.eq_some (h : Latest P last) (hpos : P pos) (hlater : ∀ later, pos < later → ¬ P later) :
    last = some pos := by
  cases last with
  | none => exact absurd hpos (h pos)
  | some other =>
    obtain ⟨hother, hlast⟩ := h
    rcases Nat.lt_trichotomy other pos with hlt | rfl | hgt
    · exact absurd hpos (hlast pos hlt)
    · rfl
    · exact absurd hother (hlater other hgt)

theorem Latest.eq_none (h : Latest P last) (hnone : ∀ pos, ¬ P pos) : last = none := by
  cases last with
  | none => rfl
  | some pos => exact absurd h.1 (hnone pos)

theorem Latest.congr {Q : Nat → Prop} (h : Latest P last) (hPQ : ∀ pos, P pos ↔ Q pos) : Latest Q last := by
  obtain rfl : P = Q := funext fun pos => propext (hPQ pos)
  exact h

theorem Latest.pass (hn : P n) : Latest (fun pos => pos < n + 1 ∧ P pos) (some n) :=
  ⟨⟨Nat.lt_succ_self n, hn⟩, fun _ hlater h => Nat.not_lt.mpr (Nat.le_of_lt_succ h.1) hlater⟩

theorem Latest.skip (h : Latest (fun pos => pos < n ∧ P pos) last) (hn : ¬ P n) :
    Latest (fun pos => pos < n + 1 ∧ P pos) last := by
  refine h.congr fun pos => ⟨fun ⟨hlt, hpos⟩ => ⟨Nat.lt_succ_of_lt hlt, hpos⟩, fun ⟨hlt, hpos⟩ => ⟨?_, hpos⟩⟩
  refine Nat.lt_of_le_of_ne (Nat.le_of_lt_succ hlt) ?_
  rintro rfl
  exact hn hpos

/-! ## Passing over the tail -/

theorem see_of_spans (h : Spans tail n stop) (found : Found) :
    found.see n (tail.length - n) (tail.drop n) =
      if stop = tail.length then { found with exact := some n }
      else if stop < tail.length then { found with inside := some n }
      else found := by
  have hn := h.lt
  obtain ⟨f, rest, hdrop, rfl⟩ := h
  have hread := EndFields.read?_eq_some_iff.mpr hdrop
  have hexact : EndFields.length + f.commentLength.toNat = tail.length - n ↔
      n + EndFields.length + f.commentLength.toNat = tail.length := by omega
  have hinside : EndFields.length + f.commentLength.toNat < tail.length - n ↔
      n + EndFields.length + f.commentLength.toNat < tail.length := by omega
  simp only [Found.see, (EndFields.of_read? hread).1, hread, hexact, hinside, if_true]

theorem see_of_not_spans (h : ∀ stop, ¬ Spans tail n stop) (found : Found) (left : Nat) :
    found.see n left (tail.drop n) = found := by
  unfold Found.see
  split
  next hsign =>
    cases hread : EndFields.read? (tail.drop n) with
    | none => rfl
    | some read =>
      obtain ⟨sign, f, rest⟩ := read
      rw [(EndFields.of_read? hread).1, Option.some.injEq] at hsign
      subst hsign
      exact absurd ⟨f, rest, EndFields.read?_eq_some_iff.mp hread, rfl⟩ (h _)
  next => rfl

/-- What is remembered of the records that begin before `n`. -/
structure Found.Tells (found : Found) (tail : Bytes) (n : Nat) : Prop where
  exact : Latest (fun pos => pos < n ∧ Spans tail pos tail.length) found.exact
  inside : Latest (fun pos => pos < n ∧ EndsInside tail pos) found.inside

theorem Found.Tells.see {found : Found} (h : found.Tells tail n) :
    (found.see n (tail.length - n) (tail.drop n)).Tells tail (n + 1) := by
  by_cases hspans : ∃ stop, Spans tail n stop
  · obtain ⟨stop, hstop⟩ := hspans
    have hends : EndsInside tail n ↔ stop < tail.length :=
      ⟨fun ⟨_, hlt, hother⟩ => hstop.unique hother ▸ hlt, fun hlt => ⟨stop, hlt, hstop⟩⟩
    rw [see_of_spans hstop]
    split
    next hexact =>
      have hnot : ¬ EndsInside tail n := by rw [hends, hexact]; exact Nat.lt_irrefl _
      exact ⟨.pass (hexact ▸ hstop), h.inside.skip hnot⟩
    next hexact =>
      have hnot : ¬ Spans tail n tail.length := fun hother => hexact (hstop.unique hother)
      split
      next hlt => exact ⟨h.exact.skip hnot, .pass (hends.mpr hlt)⟩
      next hge => exact ⟨h.exact.skip hnot, h.inside.skip (mt hends.mp hge)⟩
  · have hnone : ∀ stop, ¬ Spans tail n stop := fun stop hstop => hspans ⟨stop, hstop⟩
    rw [see_of_not_spans hnone]
    exact ⟨h.exact.skip (hnone _), h.inside.skip fun ⟨stop, _, hstop⟩ => hnone stop hstop⟩

theorem Found.Tells.search {found : Found} (h : found.Tells tail n) (hn : n ≤ tail.length) :
    (search found n (tail.length - n) (tail.drop n)).Tells tail tail.length := by
  -- The induction is on what is left of the tail.
  generalize hb : tail.drop n = b
  induction b generalizing n found with
  | nil =>
    obtain rfl : n = tail.length := Nat.le_antisymm hn (List.drop_eq_nil_iff.mp hb)
    exact h
  | cons x b ih =>
    have hlt : n < tail.length := by
      refine Nat.lt_of_not_le fun hle => ?_
      rw [List.drop_of_length_le hle] at hb
      exact nomatch hb
    have hnext : tail.drop (n + 1) = b := by
      rw [← List.drop_drop, hb]
      rfl
    have hsee := h.see
    rw [hb] at hsee
    rw [EndRecord.search, Nat.sub_sub]
    exact ih hsee hlt hnext

theorem tells_search (tail : Bytes) : (search {} 0 tail.length tail).Tells tail tail.length := by
  have hnothing : ({} : Found).Tells tail 0 :=
    ⟨fun pos h => Nat.not_lt_zero pos h.1, fun pos h => Nat.not_lt_zero pos h.1⟩
  exact hnothing.search (Nat.zero_le _)

/-! ## The record that is taken -/

/-- The record from `pos` to `stop` comes before all others: no later one ends with the tail, and if it does
not end with the tail itself, no other one does, and no later one ends within the tail. -/
structure Preferred (tail : Bytes) (pos stop : Nat) : Prop where
  spans : Spans tail pos stop
  stop_le : stop ≤ tail.length
  last : ∀ later, pos < later → ¬ Spans tail later tail.length
  inside : stop < tail.length → (∀ other, ¬ Spans tail other tail.length) ∧
    ∀ later, pos < later → ∀ stop', stop' ≤ tail.length → ¬ Spans tail later stop'

theorem position?_eq_some_iff : position? tail = some pos ↔ ∃ stop, Preferred tail pos stop := by
  obtain ⟨hexact, hinside⟩ := tells_search tail
  replace hexact := hexact.congr fun pos => and_iff_right_of_imp Spans.lt
  replace hinside := hinside.congr fun pos => and_iff_right_of_imp EndsInside.lt
  rw [position?]
  generalize search {} 0 tail.length tail = found at hexact hinside
  constructor
  · intro h
    cases he : found.exact with
    | some other =>
      rw [he] at h hexact
      obtain rfl : other = pos := Option.some.inj h
      exact ⟨tail.length, hexact.1, Nat.le_refl _, hexact.2, fun hlt => absurd hlt (Nat.lt_irrefl _)⟩
    | none =>
      have hi : found.inside = some pos := by
        rw [he] at h
        exact h
      rw [he] at hexact
      rw [hi] at hinside
      obtain ⟨⟨stop, hlt, hspans⟩, hlast⟩ := hinside
      refine ⟨stop, hspans, Nat.le_of_lt hlt, fun later _ => hexact later, fun _ => ⟨hexact, ?_⟩⟩
      intro later hlater stop hle hlaterSpans
      rcases Nat.lt_or_eq_of_le hle with hlt | rfl
      · exact hlast later hlater ⟨stop, hlt, hlaterSpans⟩
      · exact hexact later hlaterSpans
  · rintro ⟨stop, hspans, hle, hlast, hothers⟩
    rcases Nat.lt_or_eq_of_le hle with hlt | rfl
    · obtain ⟨hnone, hlater⟩ := hothers hlt
      have hi : found.inside = some pos := by
        refine hinside.eq_some ⟨stop, hlt, hspans⟩ ?_
        rintro later hafter ⟨stop', hlt', hspans'⟩
        exact hlater later hafter stop' (Nat.le_of_lt hlt') hspans'
      simp only [hexact.eq_none hnone, hi]
      rfl
    · simp only [hexact.eq_some hspans hlast]
      rfl

theorem parseAt_of_drop {f : EndFields} {rest : Bytes} (h : tail.drop pos = f.toBytes ++ rest) :
    parseAt tail pos = .ok r ↔ f.isSplit = false ∧ hasLocator tail pos = false ∧ f.isZip64 = false ∧
      r = ⟨f.count, f.directorySize, f.directoryOffset, rest.take f.commentLength.toNat⟩ := by
  rw [parseAt, EndFields.read?_eq_some_iff.mpr h]
  cases hs : f.isSplit <;> cases hl : hasLocator tail pos <;> cases hz : f.isZip64 <;> simp [hs, hz, eq_comm]

/-- The record stands at `pos` as it would be written. -/
structure WrittenAt (r : EndRecord) (tail : Bytes) (pos : Nat) : Prop where
  comment : r.comment.length ≤ Writer.maxFieldLength
  bytes : (tail.drop pos).take (EndFields.length + r.comment.length) = r.toBytes

theorem WrittenAt.drop (h : r.WrittenAt tail pos) : ∃ rest, tail.drop pos = r.fields.toBytes ++ (r.comment ++ rest) :=
  ⟨_, ((List.take_append_drop _ _).symm.trans (congrArg (· ++ _) h.bytes)).trans (List.append_assoc _ _ _)⟩

theorem WrittenAt.spans (h : r.WrittenAt tail pos) :
    Spans tail pos (pos + EndFields.length + r.comment.length) := by
  obtain ⟨rest, hdrop⟩ := h.drop
  exact ⟨r.fields, _, hdrop, congrArg (pos + EndFields.length + ·) (toNat_lengthField h.comment).symm⟩

theorem fields_eq {f : EndFields} (hsplit : f.isSplit = false) {comment : Bytes}
    (hcomment : comment.length = f.commentLength.toNat) :
    fields ⟨f.count, f.directorySize, f.directoryOffset, comment⟩ = f := by
  obtain ⟨disk, directoryDisk, countHere, count, directorySize, directoryOffset, commentLength⟩ := f
  simp only [EndFields.isSplit, ne_eq, Bool.or_eq_false_iff, decide_eq_false_iff_not, not_not] at hsplit
  obtain ⟨⟨rfl, rfl⟩, rfl⟩ := hsplit
  rw [fields, hcomment, UInt16.ofNat_toNat]

theorem isSplit_fields (r : EndRecord) : r.fields.isSplit = false := by
  simp [EndFields.isSplit, fields]

theorem isZip64_fields : r.fields.isZip64 = false ↔ r.Narrow := by
  have hlt {n : UInt32} : n < 0xFFFFFFFF ↔ n ≠ 0xFFFFFFFF := by
    rw [← UInt32.toNat_inj.ne, UInt32.lt_iff_toNat_lt]
    have hn := n.toNat_lt
    have hmax : (0xFFFFFFFF : UInt32).toNat = 4294967295 := rfl
    omega
  have hnarrow : r.Narrow ↔ (r.count ≠ 0xFFFF ∧ r.directorySize ≠ 0xFFFFFFFF) ∧ r.directoryOffset ≠ 0xFFFFFFFF :=
    ⟨fun ⟨h₁, h₂, h₃⟩ => ⟨⟨h₁, hlt.mp h₂⟩, hlt.mp h₃⟩, fun ⟨⟨h₁, h₂⟩, h₃⟩ => ⟨h₁, hlt.mpr h₂, hlt.mpr h₃⟩⟩
  rw [hnarrow, EndFields.isZip64]
  simp only [Bool.or_eq_false_iff, decide_eq_false_iff_not]
  rfl

theorem parseAt_eq_ok_iff (hle : stop ≤ tail.length) (hspans : Spans tail pos stop) :
    parseAt tail pos = .ok r ↔ r.WrittenAt tail pos ∧ r.Narrow ∧ hasLocator tail pos = false := by
  constructor
  · obtain ⟨f, rest, hdrop, rfl⟩ := hspans
    rw [parseAt_of_drop hdrop]
    rintro ⟨hsplit, hlocator, hzip64, hr⟩
    have hlength := congrArg List.length hdrop
    rw [List.length_drop, List.length_append, EndFields.length_toBytes] at hlength
    have hcomment : (rest.take f.commentLength.toNat).length = f.commentLength.toNat := by
      rw [List.length_take]
      omega
    have hfields : r.fields = f := hr ▸ fields_eq hsplit hcomment
    have hrecord : r.comment = rest.take f.commentLength.toNat := congrArg comment hr
    have hsmall := f.commentLength.toNat_lt
    refine ⟨⟨?_, ?_⟩, isZip64_fields.mp (hfields ▸ hzip64), hlocator⟩
    · rw [hrecord, hcomment]
      exact Nat.le_of_lt_succ hsmall
    · rw [hdrop, hrecord, hcomment, ← EndFields.length_toBytes f, List.take_length_add_append, ← hrecord, ← hfields]
      rfl
  · intro ⟨hwritten, hnarrow, hlocator⟩
    obtain ⟨rest, hdrop⟩ := hwritten.drop
    have hcomment : r.fields.commentLength.toNat = r.comment.length := toNat_lengthField hwritten.comment
    refine (parseAt_of_drop hdrop).mpr ⟨isSplit_fields r, hlocator, isZip64_fields.mpr hnarrow, ?_⟩
    rw [hcomment, List.take_left]
    rfl

/-- The search yields exactly the record that is written where it is found, with its comment, and that comes before
all others in the tail, unless a number of it stands for a larger one or a locator stands before it. -/
theorem find_eq_ok_iff_preferred : find tail start = .ok (r, recordStart) ↔ ∃ pos, recordStart = start + pos ∧
    r.WrittenAt tail pos ∧ Preferred tail pos (pos + EndFields.length + r.comment.length) ∧
    r.Narrow ∧ hasLocator tail pos = false := by
  constructor
  · intro h
    obtain ⟨pos, hposition, hparse, rfl⟩ := find_eq_ok h
    obtain ⟨stop, hpreferred⟩ := position?_eq_some_iff.mp hposition
    obtain ⟨hwritten, hnarrow, hlocator⟩ := (parseAt_eq_ok_iff hpreferred.stop_le hpreferred.spans).mp hparse
    obtain rfl := hpreferred.spans.unique hwritten.spans
    exact ⟨pos, rfl, hwritten, hpreferred, hnarrow, hlocator⟩
  · rintro ⟨pos, rfl, hwritten, hpreferred, hnarrow, hlocator⟩
    have hparse := (parseAt_eq_ok_iff hpreferred.stop_le hpreferred.spans).mpr ⟨hwritten, hnarrow, hlocator⟩
    have hlong : ¬ tail.length < EndFields.length := by
      have hle := hpreferred.stop_le
      omega
    rw [find, if_neg hlong, position?_eq_some_iff.mpr ⟨_, hpreferred⟩]
    simp only [hparse]
    rfl

end EndRecord
end SourceLabel.Zip
