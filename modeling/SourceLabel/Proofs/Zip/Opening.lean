import SourceLabel.Proofs.Result
import SourceLabel.Zip.Archive

/-!
# Opening an archive

What is known of an archive that could be opened: where its end record was found, that its directory lies
before that record, and that the entries are the headers of the directory.
-/
namespace SourceLabel.Zip.Archive

theorem readDirectory_size {directory left offset : Nat} {b : Bytes} {entries result : Array Entry}
    (h : readDirectory directory left offset b entries = .ok result) :
    result.size = entries.size + left := by
  induction left generalizing offset b entries with
  | zero =>
    simp only [readDirectory, Except.ok.injEq] at h
    simp [← h]
  | succ left ih =>
    simp only [readDirectory] at h
    split at h
    · exact nomatch h
    · split at h
      · exact nomatch h
      · rw [ih h, Array.size_push]
        omega

/-- An entry that was read of a directory was read of one of its headers, and its local header begins before the
directory. -/
theorem mem_of_readDirectory {directory left offset : Nat} {b : Bytes} {entries result : Array Entry}
    (h : readDirectory directory left offset b entries = .ok result) {e : Entry} (he : e ∈ result) :
    e ∈ entries ∨ e.localOffset.toNat < directory ∧
      ∃ header offset index rest, Entry.parse header offset index = .ok (e, rest) := by
  induction left generalizing offset b entries with
  | zero =>
    obtain rfl := Except.ok.inj h
    exact .inl he
  | succ left ih =>
    unfold readDirectory at h
    split at h
    · exact nomatch h
    next first rest hparse =>
    split at h
    · exact nomatch h
    next hbefore =>
    rcases ih h with hmem | hread
    · rcases Array.mem_push.mp hmem with hmem | rfl
      · exact .inl hmem
      · exact .inr ⟨Nat.not_le.mp hbefore, b, offset, entries.size, rest, hparse⟩
    · exact .inr hread

/-- The steps by which an archive was opened. -/
structure OpenedBy (b : Bytes) (a : Archive) (record : EndRecord) (recordStart : Nat) : Prop where
  find : EndRecord.find (b.drop (EndRecord.tailStart b.length)) (EndRecord.tailStart b.length) =
    .ok (record, recordStart)
  stop_le : record.directoryOffset.toNat + record.directorySize.toNat ≤ recordStart
  length : a.length = b.length
  directoryOffset : a.directoryOffset = record.directoryOffset.toNat
  comment : a.comment = record.comment
  entries : readDirectory record.directoryOffset.toNat record.count.toNat
    record.directoryOffset.toNat
    ((b.drop record.directoryOffset.toNat).take record.directorySize.toNat) #[] = .ok a.entries

theorem parse_eq_ok_iff {b : Bytes} {a : Archive} :
    parse b = .ok a ↔ ∃ record recordStart, OpenedBy b a record recordStart := by
  constructor
  · intro h
    simp only [parse] at h
    obtain ⟨⟨record, recordStart⟩, hf, h₁⟩ := Result.bind_eq_ok.mp h
    simp only at h₁
    split at h₁
    · exact nomatch h₁
    · next hle =>
      obtain ⟨entries, he, h₂⟩ := Result.bind_eq_ok.mp h₁
      have ha := Except.ok.inj h₂
      subst ha
      exact ⟨record, recordStart, hf, by omega, rfl, rfl, rfl, he⟩
  · intro ⟨record, recordStart, h⟩
    obtain ⟨length, directoryOffset, entries, comment⟩ := a
    have hle : ¬ recordStart < record.directoryOffset.toNat + record.directorySize.toNat :=
      Nat.not_lt.mpr h.stop_le
    simp only [parse, bind, Except.bind, h.find, hle, if_false, pure, Except.pure, h.entries]
    have h₁ := h.length
    have h₂ := h.directoryOffset
    have h₃ := h.comment
    simp only at h₁ h₂ h₃
    rw [h₁, h₂, h₃]

theorem mem_of_parse {b : Bytes} {a : Archive} (h : parse b = .ok a) {e : Entry} (he : e ∈ a.entries) :
    e.localOffset.toNat < a.directoryOffset ∧
      ∃ header offset index rest, Entry.parse header offset index = .ok (e, rest) := by
  obtain ⟨record, recordStart, ho⟩ := parse_eq_ok_iff.mp h
  rw [ho.directoryOffset]
  exact (mem_of_readDirectory ho.entries he).resolve_left (Array.not_mem_empty e)

theorem size_lt_of_parse {b : Bytes} {a : Archive} (h : parse b = .ok a) : a.entries.size < 65536 := by
  obtain ⟨record, recordStart, hr⟩ := parse_eq_ok_iff.mp h
  have hs := readDirectory_size hr.entries
  have hc := record.count.toNat_lt
  simp only [List.size_toArray, List.length_nil] at hs
  omega

end SourceLabel.Zip.Archive
