import SourceLabel.Proofs.Zip.Opening
import SourceLabel.Proofs.Zip.Preference

/-!
# What is seen of an archive before its directory

The end record of an archive is looked for in the last bytes only, as many as the longest record takes. That is
enough to find the record: one that ends with the archive cannot begin earlier, so all positions that are seen
are judged as they would be in the whole archive. It is not enough to judge what was found. A locator of wider
numbers stands before the record, and if the record begins within the first bytes that are looked at, the
locator begins before them. Then it goes unseen, and the archive opens as if the locator were not there.
-/
namespace SourceLabel.Zip

namespace EndRecord

variable {b : Bytes} {r : EndRecord} {start pos stop recordStart : Nat}

/-! ## Positions -/

theorem tailStart_le (length : Nat) : tailStart length ≤ length :=
  Nat.sub_le _ _

theorem spans_drop : Spans (b.drop start) pos stop ↔ Spans b (start + pos) (start + stop) := by
  have hstop (f : EndFields) : stop = pos + EndFields.length + f.commentLength.toNat ↔
      start + stop = start + pos + EndFields.length + f.commentLength.toNat := by omega
  simp only [Spans, List.drop_drop, hstop]

theorem Spans.tailStart_le (h : Spans b pos b.length) : tailStart b.length ≤ pos := by
  obtain ⟨f, -, -, hlength⟩ := h
  have hfixed : EndFields.length = 22 := rfl
  have hmax : maxLength = 65557 := rfl
  have hsmall := f.commentLength.toNat_lt
  rw [tailStart]
  omega

/-- Among the positions that are looked at, the same one comes before all others as in the whole archive. -/
theorem preferred_tail :
    Preferred (b.drop (tailStart b.length)) pos stop ↔
      Preferred b (tailStart b.length + pos) (tailStart b.length + stop) := by
  have hstart := tailStart_le b.length
  have early : ∀ other, other < tailStart b.length → ¬ Spans b other b.length :=
    fun other hother h => absurd h.tailStart_le (Nat.not_le.mpr hother)
  have hlength : tailStart b.length + (b.drop (tailStart b.length)).length = b.length := by
    rw [List.length_drop]
    omega
  have hexact : ∀ other, Spans (b.drop (tailStart b.length)) other (b.drop (tailStart b.length)).length ↔
      Spans b (tailStart b.length + other) b.length := fun other => by rw [spans_drop, hlength]
  generalize tailStart b.length = start at *
  constructor
  · rintro ⟨hspans, hle, hlast, hothers⟩
    refine ⟨spans_drop.mp hspans, by omega, fun later hlater h => ?_, fun hlt => ⟨fun other h => ?_, ?_⟩⟩
    · obtain ⟨k, rfl⟩ := Nat.exists_eq_add_of_le (show start ≤ later by omega)
      exact hlast k (by omega) ((hexact k).mpr h)
    · rcases Nat.lt_or_ge other start with hearly | hge
      · exact early other hearly h
      · obtain ⟨k, rfl⟩ := Nat.exists_eq_add_of_le hge
        exact (hothers (by omega)).1 k ((hexact k).mpr h)
    · intro later hlater stop' hle' h
      obtain ⟨k, rfl⟩ := Nat.exists_eq_add_of_le (show start ≤ later by omega)
      have hstop' : start ≤ stop' := by
        obtain ⟨-, -, -, rfl⟩ := h
        omega
      obtain ⟨m, rfl⟩ := Nat.exists_eq_add_of_le hstop'
      exact (hothers (by omega)).2 k (by omega) m (by omega) (spans_drop.mpr h)
  · rintro ⟨hspans, hle, hlast, hothers⟩
    refine ⟨spans_drop.mpr hspans, by omega, fun later hlater h => ?_, fun hlt => ⟨fun other h => ?_, ?_⟩⟩
    · exact hlast (start + later) (by omega) ((hexact later).mp h)
    · exact (hothers (by omega)).1 _ ((hexact other).mp h)
    · intro later hlater stop' hle' h
      exact (hothers (by omega)).2 (start + later) (by omega) _ (by omega) (spans_drop.mp h)

theorem position?_tail :
    position? (b.drop (tailStart b.length)) = some pos ↔ position? b = some (tailStart b.length + pos) := by
  rw [position?_eq_some_iff, position?_eq_some_iff]
  constructor
  · rintro ⟨stop, h⟩
    exact ⟨_, preferred_tail.mp h⟩
  · rintro ⟨stop, h⟩
    have hle : tailStart b.length ≤ stop := by
      obtain ⟨-, -, -, rfl⟩ := h.spans
      omega
    obtain ⟨m, rfl⟩ := Nat.exists_eq_add_of_le hle
    exact ⟨m, preferred_tail.mpr h⟩

/-! ## What was found -/

theorem find_of_position? {tail : Bytes} (h : position? tail = some pos) (start : Nat) :
    find tail start = (parseAt tail pos).map (·, start + pos) := by
  obtain ⟨stop, hpreferred⟩ := position?_eq_some_iff.mp h
  have hlong : ¬ tail.length < EndFields.length := by
    obtain ⟨f, -, -, hstop⟩ := hpreferred.spans
    have hle := hpreferred.stop_le
    omega
  rw [find, if_neg hlong, h]
  cases hparse : parseAt tail pos <;> simp only [hparse] <;> rfl

theorem find_eq_ok_iff {tail : Bytes} : find tail start = .ok (r, recordStart) ↔
    ∃ pos, position? tail = some pos ∧ parseAt tail pos = .ok r ∧ recordStart = start + pos := by
  constructor
  · exact find_eq_ok
  · rintro ⟨pos, hpos, hparse, rfl⟩
    rw [find_of_position? hpos, hparse]
    rfl

theorem writtenAt_drop : r.WrittenAt (b.drop start) pos ↔ r.WrittenAt b (start + pos) := by
  constructor
  · rintro ⟨hcomment, hbytes⟩
    exact ⟨hcomment, List.drop_drop ▸ hbytes⟩
  · rintro ⟨hcomment, hbytes⟩
    exact ⟨hcomment, List.drop_drop.symm ▸ hbytes⟩

theorem parseAt_of_position? (h : position? b = some pos) :
    parseAt b pos = .ok r ↔ r.WrittenAt b pos ∧ r.Narrow ∧ hasLocator b pos = false := by
  obtain ⟨stop, hpreferred⟩ := position?_eq_some_iff.mp h
  exact parseAt_eq_ok_iff hpreferred.stop_le hpreferred.spans

/-- A locator stands before the record at `pos`, but the part that is looked at begins after the locator does. -/
structure Overlooked (b : Bytes) (pos : Nat) : Prop where
  hasLocator : hasLocator b pos
  start_le : tailStart b.length ≤ pos
  lt : pos < tailStart b.length + locatorLength

/-- What is found is the record that counts in the whole archive, unless a locator that is seen stands before
it. -/
theorem find_tail_eq_ok : find (b.drop (tailStart b.length)) (tailStart b.length) = .ok (r, recordStart) ↔
    tailStart b.length ≤ recordStart ∧ position? b = some recordStart ∧ r.WrittenAt b recordStart ∧ r.Narrow ∧
      (hasLocator b recordStart → Overlooked b recordStart) := by
  have hseen : ∀ pos, hasLocator (b.drop (tailStart b.length)) pos = false ↔
      (hasLocator b (tailStart b.length + pos) → Overlooked b (tailStart b.length + pos)) := by
    intro pos
    have hdrop := hasLocator_drop b (Nat.le_add_right (tailStart b.length) pos)
    rw [Nat.add_sub_cancel_left] at hdrop
    rw [hdrop, Bool.and_eq_false_iff, decide_eq_false_iff_not]
    constructor
    · rintro (hshort | hnone) hlocator
      · exact ⟨hlocator, Nat.le_add_right _ _, Nat.not_le.mp hshort⟩
      · exact absurd hlocator (Bool.not_eq_true _ ▸ hnone)
    · intro h
      cases hlocator : hasLocator b (tailStart b.length + pos) with
      | false => exact .inr rfl
      | true => exact .inl (Nat.not_le.mpr (h hlocator).lt)
  rw [find_eq_ok_iff]
  constructor
  · rintro ⟨pos, hpos, hparse, rfl⟩
    obtain ⟨hwritten, hnarrow, hlocator⟩ := (parseAt_of_position? hpos).mp hparse
    exact ⟨Nat.le_add_right _ _, position?_tail.mp hpos, writtenAt_drop.mp hwritten, hnarrow,
      (hseen pos).mp hlocator⟩
  · rintro ⟨hle, hpos, hwritten, hnarrow, hlocator⟩
    obtain ⟨pos, rfl⟩ := Nat.exists_eq_add_of_le hle
    have hpos := position?_tail.mpr hpos
    exact ⟨pos, hpos, (parseAt_of_position? hpos).mpr ⟨writtenAt_drop.mpr hwritten, hnarrow, (hseen pos).mpr hlocator⟩,
      rfl⟩

theorem find_whole_eq_ok : find b 0 = .ok (r, recordStart) ↔
    position? b = some recordStart ∧ r.WrittenAt b recordStart ∧ r.Narrow ∧ hasLocator b recordStart = false := by
  rw [find_eq_ok_iff]
  constructor
  · rintro ⟨pos, hpos, hparse, rfl⟩
    rw [Nat.zero_add]
    exact ⟨hpos, (parseAt_of_position? hpos).mp hparse⟩
  · rintro ⟨hpos, hrecord⟩
    exact ⟨recordStart, hpos, (parseAt_of_position? hpos).mpr hrecord, (Nat.zero_add _).symm⟩

/-- With a locator before it, a record that would otherwise be taken is refused in the whole archive. -/
theorem find_whole_of_hasLocator (hpos : position? b = some pos) (hwritten : r.WrittenAt b pos)
    (hlocator : hasLocator b pos) : find b 0 = .error (.unsupportedFeature .zip64) := by
  obtain ⟨rest, hdrop⟩ := hwritten.drop
  have hrefused : parseAt b pos = .error (.unsupportedFeature .zip64) := by
    simp only [parseAt, EndFields.read?_eq_some_iff.mpr hdrop, isSplit_fields, hlocator, Bool.true_or,
      Bool.false_eq_true, if_false, if_true]
  rw [find_of_position? hpos, hrefused]
  rfl

/-- What is found in the last bytes is what is found in the whole archive, or else a record whose locator the last
bytes do not show, and the whole archive is refused for that locator. An archive with a locator before its record
does not open, whatever it holds, unless the locator goes unseen in this way; then the record begins more than
65537 bytes before the end. -/
theorem find_tail_eq_ok_iff_whole (b : Bytes) :
    (∀ r recordStart, find (b.drop (tailStart b.length)) (tailStart b.length) = .ok (r, recordStart) ↔
      tailStart b.length ≤ recordStart ∧ (find b 0 = .ok (r, recordStart) ∨
        Overlooked b recordStart ∧ find b 0 = .error (.unsupportedFeature .zip64) ∧
          position? b = some recordStart ∧ r.WrittenAt b recordStart ∧ r.Narrow)) ∧
    (∀ pos, position? b = some pos → hasLocator b pos → ¬ Overlooked b pos → ∃ e, Archive.parse b = .error e) ∧
    ∀ pos, Overlooked b pos → maxLength < b.length ∧ pos + 65537 < b.length := by
  refine ⟨fun r recordStart => ?_, fun pos hpos hlocator hseen => ?_, fun pos h => ?_⟩
  · rw [find_tail_eq_ok, find_whole_eq_ok]
    constructor
    · rintro ⟨hle, hpos, hwritten, hnarrow, hover⟩
      refine ⟨hle, ?_⟩
      cases hlocator : hasLocator b recordStart with
      | false => exact .inl ⟨hpos, hwritten, hnarrow, rfl⟩
      | true =>
        exact .inr ⟨hover hlocator, find_whole_of_hasLocator hpos hwritten hlocator, hpos, hwritten, hnarrow⟩
    · rintro ⟨hle, ⟨hpos, hwritten, hnarrow, hnone⟩ | ⟨hover, -, hpos, hwritten, hnarrow⟩⟩
      · exact ⟨hle, hpos, hwritten, hnarrow, fun hlocator => absurd hlocator (Bool.not_eq_true _ ▸ hnone)⟩
      · exact ⟨hle, hpos, hwritten, hnarrow, fun _ => hover⟩
  · cases hparse : Archive.parse b with
    | error e => exact ⟨e, rfl⟩
    | ok a =>
      obtain ⟨record, recordStart, hopened⟩ := Archive.parse_eq_ok_iff.mp hparse
      obtain ⟨-, hfound, -, -, hover⟩ := find_tail_eq_ok.mp hopened.find
      obtain rfl := Option.some.inj (hpos.symm.trans hfound)
      exact absurd (hover hlocator) hseen
  · have hlocator := h.hasLocator
    have hlt := h.lt
    have hlength : locatorLength = 20 := rfl
    have hmax : maxLength = 65557 := rfl
    simp only [hasLocator, Bool.and_eq_true, decide_eq_true_eq] at hlocator
    rw [tailStart] at hlt
    omega

/-! ## A locator that goes unseen -/

theorem endsExactly_of_notMem (h : 0x50 ∉ b) : endsExactly b = false := by
  unfold endsExactly
  split
  · rfl
  next sign f rest hread =>
  rw [Bool.and_eq_false_iff, decide_eq_false_iff_not]
  refine .inl ?_
  rintro rfl
  rw [EndFields.read?_eq_some_iff.mp hread] at h
  exact h (List.mem_append_left _ (List.mem_cons_self ..))

/-- The record of an archive without entries, with the longest comment there is. -/
def longestRecord : EndRecord :=
  ⟨0, 0, 0, List.replicate 65535 0⟩

def locator : Bytes :=
  Bytes.le32 locatorSignature ++ List.replicate 16 0

/-- An archive that begins with a locator, which its end record follows. -/
def locatorFirst : Bytes :=
  locator ++ longestRecord.toBytes

@[simp] theorem length_longestComment : longestRecord.comment.length = 65535 :=
  List.length_replicate

@[simp] theorem length_locatorFirst : locatorFirst.length = 65577 := by
  rw [locatorFirst, List.length_append, length_toBytes, length_longestComment]
  rfl

theorem endsExactly_longestRecord {k : Nat} (hk : 0 < k) : endsExactly (longestRecord.toBytes.drop k) = false := by
  have hfields : longestRecord.fields = ⟨0, 0, 0, 0, 0, 0, 0xFFFF⟩ := by
    rw [fields, length_longestComment]
    rfl
  have hbytes : longestRecord.toBytes = longestRecord.fields.toBytes ++ List.replicate 65535 0 := rfl
  refine endsExactly_of_notMem fun hmem => ?_
  replace hmem : 0x50 ∈ longestRecord.toBytes.drop 1 := (List.drop_sublist_drop_left _ hk).subset hmem
  rw [hbytes, hfields, List.drop_append_of_le_length (by decide), List.mem_append] at hmem
  rcases hmem with hfixed | hcomment
  · exact absurd hfixed (by decide)
  · exact absurd (List.eq_of_mem_replicate hcomment) (by decide)

/-- The last bytes show the record and not the locator before it, so the archive opens. In the whole archive the
locator is found, and the record is refused. -/
theorem locatorFirst_opens :
    maxLength < locatorFirst.length ∧ position? locatorFirst = some 20 ∧ hasLocator locatorFirst 20 ∧
      find (locatorFirst.drop (tailStart locatorFirst.length)) (tailStart locatorFirst.length) =
        .ok (longestRecord, 20) ∧
      find locatorFirst 0 = .error (.unsupportedFeature .zip64) ∧
      Archive.parse locatorFirst = .ok ⟨65577, 0, #[], longestRecord.comment⟩ := by
  have hcomment : longestRecord.comment.length ≤ Writer.maxFieldLength := Nat.le_of_eq length_longestComment
  have hnarrow : longestRecord.Narrow := ⟨by decide, by decide, by decide⟩
  have hexact : endsExactly longestRecord.toBytes := endsExactly_toBytes hcomment
  have hlast : ∀ k, 0 < k → endsExactly (longestRecord.toBytes.drop k) = false := fun _ => endsExactly_longestRecord
  have hposition : position? locatorFirst = some 20 := position?_append hexact hlast _
  have hlocator : hasLocator locatorFirst 20 := by
    decide +kernel
  have hwhole : find locatorFirst 0 = .error (.unsupportedFeature .zip64) :=
    (find_append hcomment hnarrow hlast locator 0).trans (if_pos hlocator)
  have hstart : tailStart locatorFirst.length = 20 := by
    rw [length_locatorFirst]
    decide
  have htail : find (locatorFirst.drop (tailStart locatorFirst.length)) (tailStart locatorFirst.length) =
      .ok (longestRecord, 20) := by
    have hbytes : longestRecord.WrittenAt locatorFirst 20 := by
      refine ⟨hcomment, ?_⟩
      rw [← length_toBytes]
      exact List.take_length
    have hover : Overlooked locatorFirst 20 := ⟨hlocator, Nat.le_of_eq hstart, by rw [hstart]; decide⟩
    exact find_tail_eq_ok.mpr ⟨hover.start_le, hposition, hbytes, hnarrow, fun _ => hover⟩
  have hopened : Archive.OpenedBy locatorFirst ⟨65577, 0, #[], longestRecord.comment⟩ longestRecord 20 :=
    ⟨htail, Nat.zero_le _, length_locatorFirst.symm, rfl, rfl, rfl⟩
  refine ⟨?_, hposition, hlocator, htail, hwhole, Archive.parse_eq_ok_iff.mpr ⟨_, _, hopened⟩⟩
  rw [length_locatorFirst]
  decide

end EndRecord
end SourceLabel.Zip
