import SourceLabel.Proofs.Result
import SourceLabel.Proofs.Zip.Fields

/-!
# Finding the end record

The record at the end of an archive is found again, unless a later position looks like a record whose
comment ends the archive as well, or the bytes before the record look like a locator of wider numbers.
-/
namespace SourceLabel.Zip

namespace EndFields

theorem of_read? {b rest : Bytes} {sign : UInt32} {f : EndFields} (h : read? b = some (sign, f, rest)) :
    (Bytes.take32? b).map Prod.fst = some sign ∧ b.length = length + rest.length := by
  unfold read? at h
  repeat
    first | rw [Bytes.bind_take16?_eq_some] at h | rw [Bytes.bind_take32?_eq_some] at h
    obtain ⟨_, _, rfl, h⟩ := h
  obtain ⟨rfl, hfields⟩ := Prod.mk.inj (Option.some.inj h)
  obtain ⟨rfl, rfl⟩ := Prod.mk.inj hfields
  constructor
  · rw [Bytes.take32?_le32]
    rfl
  · exact Nat.add_comm _ length

end EndFields

namespace EndRecord

/-- Does a record come first whose comment ends where the bytes end? -/
def endsExactly (b : Bytes) : Bool :=
  match EndFields.read? b with
  | none => false
  | some (sign, f, rest) => sign = EndFields.signature && f.commentLength.toNat = rest.length

theorem endsExactly_of_short {b : Bytes} (h : b.length < EndFields.length) : endsExactly b = false := by
  unfold endsExactly
  cases hr : EndFields.read? b with
  | none => rfl
  | some r =>
    have hlength := (EndFields.of_read? hr).2
    omega

/-- No record begins where the bytes end, so only places before that have to be looked at. -/
theorem endsExactly_after_of_lt {b : Bytes} {start : Nat}
    (h : ∀ pos < b.length, start < pos → endsExactly (b.drop pos) = false) :
    ∀ pos, start < pos → endsExactly (b.drop pos) = false := by
  intro pos hpos
  rcases Nat.lt_or_ge pos b.length with hlt | hge
  · exact h pos hlt hpos
  · rw [List.drop_of_length_le hge]
    rfl

theorem exact_see (found : Found) (pos : Nat) (b : Bytes) :
    (found.see pos b.length b).exact = if endsExactly b then some pos else found.exact := by
  unfold Found.see endsExactly
  cases hr : EndFields.read? b with
  | none => split <;> rfl
  | some r =>
    obtain ⟨sign, f, rest⟩ := r
    obtain ⟨hsign, hlength⟩ := EndFields.of_read? hr
    rw [hsign, hlength]
    by_cases hs : sign = EndFields.signature
    · have hc : EndFields.length + f.commentLength.toNat = EndFields.length + rest.length ↔
          f.commentLength.toNat = rest.length := Nat.add_left_cancel_iff
      by_cases he : f.commentLength.toNat = rest.length
      · simp [hs, he]
      · simp only [hs, if_true, hc, he, if_false]
        split <;> simp
    · simp [hs]

theorem exact_search_of_none {b : Bytes} (h : ∀ k, endsExactly (b.drop k) = false) (found : Found)
    (pos : Nat) : (search found pos b.length b).exact = found.exact := by
  induction b generalizing found pos with
  | nil => rfl
  | cons x b ih =>
    have hb : ∀ k, endsExactly (b.drop k) = false := fun k => h (k + 1)
    have hx : endsExactly (x :: b) = false := h 0
    rw [search, List.length_cons, Nat.add_sub_cancel, ih hb, ← List.length_cons, exact_see, hx]
    rfl

/-- The last record that ends exactly is the one that is found. -/
theorem exact_search_append {back : Bytes} (hback : endsExactly back)
    (hlast : ∀ k, 0 < k → endsExactly (back.drop k) = false) (front : Bytes) (found : Found) (pos : Nat) :
    (search found pos (front ++ back).length (front ++ back)).exact = some (pos + front.length) := by
  induction front generalizing found pos with
  | nil =>
    cases back with
    | nil => exact nomatch hback
    | cons x back =>
      have hnone : ∀ k, endsExactly (back.drop k) = false := fun k => hlast (k + 1) (Nat.succ_pos k)
      rw [List.nil_append, search, List.length_cons, Nat.add_sub_cancel, exact_search_of_none hnone,
        ← List.length_cons, exact_see, if_pos hback]
      rfl
  | cons x front ih =>
    have hsub : (x :: (front ++ back)).length - 1 = (front ++ back).length := rfl
    rw [List.cons_append, search, hsub, ih, List.length_cons]
    congr 1
    omega

/-- The fields of a record that is written. -/
def fields (r : EndRecord) : EndFields :=
  ⟨0, 0, r.count, r.count, r.directorySize, r.directoryOffset, UInt16.ofNat r.comment.length⟩

@[simp] theorem read?_toBytes (r : EndRecord) :
    EndFields.read? r.toBytes = some (EndFields.signature, r.fields, r.comment) :=
  EndFields.read?_toBytes r.fields r.comment

@[simp] theorem length_toBytes (r : EndRecord) : r.toBytes.length = EndFields.length + r.comment.length :=
  List.length_append

/-- No number of the record stands for a larger one. -/
structure Narrow (r : EndRecord) : Prop where
  count : r.count ≠ 0xFFFF
  directorySize : r.directorySize < 0xFFFFFFFF
  directoryOffset : r.directoryOffset < 0xFFFFFFFF

variable {r : EndRecord}

theorem endsExactly_toBytes (h : r.comment.length ≤ Writer.maxFieldLength) : endsExactly r.toBytes := by
  have hc : r.fields.commentLength.toNat = r.comment.length := toNat_lengthField h
  simp [endsExactly, hc]

/-- A locator right before the record speaks against the record, and nothing else does. -/
theorem parseAt_append (hcomment : r.comment.length ≤ Writer.maxFieldLength) (hnarrow : r.Narrow)
    (front : Bytes) :
    parseAt (front ++ r.toBytes) front.length =
      if hasLocator (front ++ r.toBytes) front.length then .error (.unsupportedFeature .zip64) else .ok r := by
  have hc : r.fields.commentLength.toNat = r.comment.length := toNat_lengthField hcomment
  have hsplit : r.fields.isSplit = false := by simp [EndFields.isSplit, fields]
  have hzip64 : r.fields.isZip64 = false := by
    have h₁ := UInt32.ne_of_lt hnarrow.directorySize
    have h₂ := UInt32.ne_of_lt hnarrow.directoryOffset
    simp [EndFields.isZip64, fields, hnarrow.count, h₁, h₂]
  rw [parseAt, List.drop_left, read?_toBytes]
  simp only [hsplit, hzip64, Bool.or_false, Bool.false_eq_true, if_false, hc, List.take_length]
  rfl

/-- The last record that ends exactly is the one that counts. -/
theorem position?_append {back : Bytes} (hback : endsExactly back)
    (hlast : ∀ k, 0 < k → endsExactly (back.drop k) = false) (front : Bytes) :
    position? (front ++ back) = some front.length := by
  rw [position?, exact_search_append hback hlast, Nat.zero_add]
  rfl

/-- The record at the end of the bytes is found at the place where it starts, unless a locator stands before it. -/
theorem find_append (hcomment : r.comment.length ≤ Writer.maxFieldLength) (hnarrow : r.Narrow)
    (hlast : ∀ k, 0 < k → endsExactly (r.toBytes.drop k) = false) (front : Bytes) (start : Nat) :
    find (front ++ r.toBytes) start =
      if hasLocator (front ++ r.toBytes) front.length then .error (.unsupportedFeature .zip64)
      else .ok (r, start + front.length) := by
  have hlong : ¬ (front ++ r.toBytes).length < EndFields.length := by
    rw [List.length_append, length_toBytes]
    omega
  simp only [find, bind, Except.bind, hlong, if_false, position?_append (endsExactly_toBytes hcomment) hlast,
    parseAt_append hcomment hnarrow, pure, Except.pure]
  cases hasLocator (front ++ r.toBytes) front.length <;> rfl

theorem length_le_maxLength (h : r.comment.length ≤ Writer.maxFieldLength) :
    r.toBytes.length ≤ maxLength := by
  rw [length_toBytes]
  exact Nat.add_le_add_left h EndFields.length

theorem hasLocator_drop (b : Bytes) {start pos : Nat} (h : start ≤ pos) :
    hasLocator (b.drop start) (pos - start) = (decide (start + locatorLength ≤ pos) && hasLocator b pos) := by
  by_cases hl : start + locatorLength ≤ pos
  · have hsum : start + (pos - start - locatorLength) = pos - locatorLength := by omega
    have hdrop : locatorLength ≤ pos - start := by omega
    have hwhole : locatorLength ≤ pos := by omega
    simp only [hasLocator, hl, hdrop, hwhole, decide_true, Bool.true_and, Bytes.u32At?, List.drop_drop, hsum]
  · have hdrop : ¬ locatorLength ≤ pos - start := by omega
    simp only [hasLocator, hl, hdrop, decide_false, Bool.false_and]

/-- The part of an archive in which the record is looked for holds the record. It need not hold a locator before
the record, and one that it does not hold is not seen. -/
theorem find_tail (hcomment : r.comment.length ≤ Writer.maxFieldLength) (hnarrow : r.Narrow)
    {body : Bytes} (hlast : ∀ pos, body.length < pos → endsExactly ((body ++ r.toBytes).drop pos) = false) :
    find ((body ++ r.toBytes).drop (tailStart (body ++ r.toBytes).length))
      (tailStart (body ++ r.toBytes).length) =
      if decide (tailStart (body ++ r.toBytes).length + locatorLength ≤ body.length) &&
        hasLocator (body ++ r.toBytes) body.length then .error (.unsupportedFeature .zip64)
      else .ok (r, body.length) := by
  have hstart : tailStart (body ++ r.toBytes).length ≤ body.length := by
    have hl := length_le_maxLength hcomment
    rw [tailStart, List.length_append]
    omega
  generalize tailStart (body ++ r.toBytes).length = start at hstart
  have hdrop : (body ++ r.toBytes).drop start = body.drop start ++ r.toBytes :=
    List.drop_append_of_le_length hstart
  have hfront : (body.drop start).length = body.length - start := List.length_drop
  have hlast' : ∀ k, 0 < k → endsExactly (r.toBytes.drop k) = false := by
    intro k hk
    have hpos := hlast (body.length + k) (by omega)
    rw [List.drop_append, List.drop_of_length_le (by omega), List.nil_append, Nat.add_sub_cancel_left] at hpos
    exact hpos
  rw [← hasLocator_drop _ hstart, hdrop, find_append hcomment hnarrow hlast', hfront, Nat.add_sub_cancel' hstart]

/-! ## What was found -/

variable {tail : Bytes} {start pos recordStart : Nat}

theorem find_eq_ok (h : find tail start = .ok (r, recordStart)) :
    ∃ pos, position? tail = some pos ∧ parseAt tail pos = .ok r ∧ recordStart = start + pos := by
  unfold find at h
  dsimp only at h
  split at h
  · exact nomatch h
  split at h
  · exact nomatch h
  next pos hpos =>
  obtain ⟨record, hrecord, hfound⟩ := Result.bind_eq_ok.mp h
  obtain ⟨rfl, rfl⟩ := Prod.mk.inj (Except.ok.inj hfound)
  exact ⟨pos, hpos, hrecord, rfl⟩

theorem parseAt_eq_ok (h : parseAt tail pos = .ok r) :
    ∃ sign f rest, EndFields.read? (tail.drop pos) = some (sign, f, rest) ∧
      r.comment = rest.take f.commentLength.toNat := by
  unfold parseAt at h
  split at h
  · exact nomatch h
  next sign f rest hread =>
  split at h
  · exact nomatch h
  split at h
  · exact nomatch h
  obtain rfl := Except.ok.inj h
  exact ⟨sign, f, rest, hread, rfl⟩

theorem le_of_parseAt (h : parseAt tail pos = .ok r) :
    pos + EndFields.length + r.comment.length ≤ tail.length := by
  obtain ⟨sign, f, rest, hread, hcomment⟩ := parseAt_eq_ok h
  have hlength := (EndFields.of_read? hread).2
  have hfixed : EndFields.length = 22 := rfl
  rw [List.length_drop] at hlength
  rw [hcomment, List.length_take]
  omega

theorem le_of_find (h : find tail start = .ok (r, recordStart)) :
    recordStart + EndFields.length + r.comment.length ≤ start + tail.length := by
  obtain ⟨pos, -, hparse, rfl⟩ := find_eq_ok h
  have hle := le_of_parseAt hparse
  omega

theorem exists_last {b : Bytes} {k : Nat} (h : endsExactly (b.drop k)) :
    ∃ m, k ≤ m ∧ endsExactly (b.drop m) ∧ ∀ j, m < j → endsExactly (b.drop j) = false := by
  have hshort : ∀ j, b.length < j → endsExactly (b.drop j) = false := by
    intro j hj
    rw [List.drop_of_length_le (Nat.le_of_lt hj)]
    exact endsExactly_of_short (Nat.zero_lt_succ 21)
  have hk : k ≤ b.length := by
    refine Nat.not_lt.mp fun hlt => ?_
    rw [hshort k hlt] at h
    exact nomatch h
  refine ⟨Nat.findGreatest (fun m => endsExactly (b.drop m)) b.length, Nat.le_findGreatest hk h,
    Nat.findGreatest_spec (P := fun m => endsExactly (b.drop m)) hk h, fun j hj => ?_⟩
  rcases Nat.lt_or_ge b.length j with hlt | hle
  · exact hshort j hlt
  · exact Bool.eq_false_of_not_eq_true (Nat.findGreatest_is_greatest hj hle)

theorem le_of_find_of_endsExactly (h : find tail start = .ok (r, recordStart)) {k : Nat}
    (hexact : endsExactly (tail.drop k)) : start + k ≤ recordStart := by
  obtain ⟨pos, hpos, -, rfl⟩ := find_eq_ok h
  obtain ⟨m, hkm, hm, hlast⟩ := exists_last hexact
  have hmt : m ≤ tail.length := by
    refine Nat.not_lt.mp fun hlt => ?_
    rw [List.drop_of_length_le (Nat.le_of_lt hlt)] at hm
    exact nomatch hm
  have hposition := position?_append hm (fun j hj => List.drop_drop ▸ hlast (m + j) (by omega)) (tail.take m)
  rw [List.take_append_drop, List.length_take, Nat.min_eq_left hmt, hpos] at hposition
  obtain rfl := Option.some.inj hposition
  omega

end EndRecord
end SourceLabel.Zip
