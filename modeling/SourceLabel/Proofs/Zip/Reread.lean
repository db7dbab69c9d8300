import SourceLabel.Proofs.Zip.ReadBack

/-!
# Archives that are written again

What is read of an entry that was written differs from that entry only in what is not written: the position
in the directory, the place of the local header, and a flag that is dropped anyway. So if the entries of an
archive are read and handed to another writer in their order, it writes the same bytes.
-/
namespace SourceLabel.Zip

namespace Entry

/-- What is read of an entry that was written, with the extra field that stands before its payload. -/
def reread (e : Entry) (localOffset : UInt32) (index : Nat) : Entry :=
  { e.recorded localOffset index with localExtra := e.localExtra }

variable (e : Entry) (localOffset : UInt32) (index : Nat)

@[simp] theorem writtenFlags_reread : (e.reread localOffset index).writtenFlags = e.writtenFlags := by
  change e.flags &&& ~~~descriptorFlag &&& ~~~descriptorFlag = e.flags &&& ~~~descriptorFlag
  rw [UInt16.and_assoc, UInt16.and_self]

@[simp] theorem localHeader_reread : (e.reread localOffset index).localHeader = e.localHeader := by
  unfold localHeader localFields
  rw [writtenFlags_reread]
  rfl

@[simp] theorem centralHeader_reread (offset : UInt32) :
    (e.reread localOffset index).centralHeader offset = e.centralHeader offset := by
  unfold centralHeader centralFields
  rw [writtenFlags_reread]
  rfl

@[simp] theorem unpack_reread (raw : Bytes) : (e.reread localOffset index).unpack raw = e.unpack raw := rfl

end Entry

namespace Writer

/-- Two writers that have written the same bytes, and would finish with the same directory. -/
structure Alike (w w' : Writer) : Prop where
  level : w'.level = w.level
  comment : w'.comment = w.comment
  sink : w'.sink = w.sink
  count : w'.central.size = w.central.size
  directory : w'.directory = w.directory

theorem Alike.refl (w : Writer) : w.Alike w := ⟨rfl, rfl, rfl, rfl, rfl⟩

variable {u v u' w w' : Writer} {e template : Entry} {data payload : Bytes} {localOffset : UInt32} {index : Nat}

theorem Alike.withTally (h : u.Alike u') (tally tally' : Tally) : { u with tally }.Alike { u' with tally := tally' } :=
  ⟨h.level, h.comment, h.sink, h.count, h.directory⟩

theorem Alike.place (h : u.Alike u') (localOffset : UInt32) (index : Nat) :
    u'.place (e.reread localOffset index) = u.place e := by
  unfold Writer.place
  rw [h.count, h.sink]
  rfl

theorem directory_append (u : Writer) (e : Entry) (offset : UInt32) (payload : Bytes) :
    (u.append e offset payload).directory = u.directory ++ e.centralHeader offset := by
  simp only [directory, append, Array.toList_push, List.flatMap_append, List.flatMap_singleton]

theorem Alike.append (h : u.Alike u') (offset localOffset : UInt32) (index : Nat) :
    (u.append e offset payload).Alike (u'.append (e.reread localOffset index) offset payload) := by
  refine ⟨h.level, h.comment, ?_, ?_, ?_⟩
  · simp [Writer.append, h.sink]
  · simp only [Writer.append, Array.size_push, h.count]
  · simp [directory_append, h.directory]

theorem Alike.put (h : u.Alike u') (hput : u.put e payload = (.ok (), v)) (localOffset : UInt32) (index : Nat) :
    ∃ v', u'.put (e.reread localOffset index) payload = (.ok (), v') ∧ v.Alike v' := by
  obtain ⟨offset, hplace, rfl⟩ := put_eq_ok hput
  refine ⟨_, ?_, h.append offset localOffset index⟩
  unfold Writer.put
  rw [h.place, hplace]

theorem Prepared.reread {level : Deflate.Level} (h : Prepared level template data e payload)
    (localOffset : UInt32) (index : Nat) :
    Prepared level (e.reread localOffset index) data (e.reread localOffset index) payload := by
  obtain ⟨hdirectory, hpack, hsize, hpacked, he⟩ := h
  have hname : e.name = template.name := (congrArg Entry.name he).trans rfl
  have hmethod : e.method = template.method := (congrArg Entry.method he).trans rfl
  have hchecksum : e.checksum = Checksum.of data := (congrArg Entry.checksum he).trans rfl
  have hneeded : (if e.method = .deflated && e.needed < Entry.version then Entry.version else e.needed) = e.needed := by
    have hn := (congrArg Entry.needed he).trans rfl
    rw [hmethod]
    by_cases hold : (template.method = .deflated && template.needed < Entry.version) = true
    · have hnew : e.needed = Entry.version := hn.trans (if_pos hold)
      rw [hnew, ite_self]
    · have hsame : e.needed = template.needed := hn.trans (if_neg hold)
      rw [hsame, if_neg hold]
  refine ⟨?_, ?_, hsize, hpacked, ?_⟩
  · rw [← hdirectory]
    simp only [Entry.isDirectory, Entry.reread, Entry.recorded, hname]
  · rw [← hpack]
    simp only [Entry.reread, Entry.recorded, hname, hmethod]
  · rw [← hchecksum]
    exact congrArg (fun needed => ({ e.reread localOffset index with needed } : Entry)) hneeded.symm

end Writer

/-! ## Archives that are found again -/

/-- Readers of the archive find its directory where the writer has put it: every number is less than the one
that stands for larger ones, what comes before the end record does not look like the locator of a wider one,
and nothing after its beginning looks like an end record that ends the archive. -/
structure Writer.Reopens (w : Writer) (done : Finished) : Prop where
  narrow : w.Narrow
  noLocator : EndRecord.hasLocator done.bytes w.recordStart = false
  last : ∀ pos, w.recordStart < pos → EndRecord.endsExactly (done.bytes.drop pos) = false

theorem Writer.reopens_of_no_comment {w : Writer} {done : Finished} (hfinish : w.finish = .ok done)
    (hcomment : w.comment = []) (hnarrow : w.Narrow)
    (hlocator : EndRecord.hasLocator done.bytes w.recordStart = false) : w.Reopens done :=
  ⟨hnarrow, hlocator, fun _ hpos => endsExactly_after hfinish hcomment hpos⟩

/-! ## Calls -/

/-- The calls by which an entry is written again after it was read: it is copied, or what was packed into it is
packed anew. -/
inductive Call.Again (level : Deflate.Level) : Call → Call → Prop
  | copied (call : Call) (localOffset : UInt32) (index : Nat) :
      Again level call (.copy ((call.header level).reread localOffset index) (call.payload level))
  | packed (template : Entry) (data : Bytes) (localOffset : UInt32) (index : Nat) :
      Again level (.add template data)
        (.add (((Call.add template data).header level).reread localOffset index) data)

theorem Call.plain_items {level : Deflate.Level} {calls : List Call} (h : ∀ call ∈ calls, call.given.Plain) :
    ∀ item ∈ Call.items level calls, item.1.Plain := by
  intro item hm
  obtain ⟨call, hc, rfl⟩ := List.mem_map.mp hm
  exact Call.plain_header (h call hc)

namespace Writer

variable {u v u' w w' : Writer} {call call' : Call}

theorem Alike.perform (h : u.Alike u') (hagain : Call.Again u.level call call')
    (hcall : call.perform u = (.ok (), v)) :
    ∃ v', call'.perform u' = (.ok (), v') ∧ v.Alike v' ∧ v.level = u.level := by
  obtain ⟨hsized, tally, hput⟩ := put_of_perform hcall
  have hlevel := (put_level_comment hput).1
  cases hagain with
  | copied call localOffset index =>
    obtain ⟨v', hput', hlike⟩ := (h.withTally tally u'.tally).put hput localOffset index
    exact ⟨v', (if_pos hsized.packedSize.symm).trans hput', hlike, hlevel⟩
  | packed template data localOffset index =>
    obtain ⟨v', hput', hlike⟩ :=
      (h.withTally tally { u'.tally with recompressed := u'.tally.recompressed + 1 }).put hput localOffset index
    refine ⟨v', ?_, hlike, hlevel⟩
    simp only [Call.perform, add] at hcall
    split at hcall
    · cases (Prod.mk.inj hcall).1
    · next e payload hprepare =>
      obtain ⟨rfl, rfl, -⟩ := prepare_eq_ok hprepare
      have hagain := prepared_iff.mpr ((prepared_iff.mp hprepare).reread localOffset index)
      exact (add_of_prepare ((congrArg (prepare · _ _) h.level).trans hagain)).trans hput'

theorem Alike.finish (h : w.Alike w') {done : Finished} (hfinish : w.finish = .ok done) :
    ∃ done', w'.finish = .ok done' ∧ done'.bytes = done.bytes := by
  unfold Writer.finish at hfinish ⊢
  rw [h.sink, h.directory, h.comment, h.count]
  obtain ⟨offset, hoffset, h₁⟩ := Result.bind_eq_ok.mp hfinish
  obtain ⟨size, hsize, h₂⟩ := Result.bind_eq_ok.mp h₁
  simp only [bind, Except.bind, hoffset, hsize]
  split at h₂
  · exact nomatch h₂
  · next hcomment =>
    obtain rfl := Except.ok.inj h₂
    rw [if_neg hcomment]
    exact ⟨_, rfl, rfl⟩

end Writer

/-- Calls that are taken are taken again, and write the same bytes. -/
theorem Taken.again {u w u' : Writer} {calls calls' : List Call} (h : Taken u calls w)
    (hagain : List.Forall₂ (Call.Again u.level) calls calls') (hlike : u.Alike u') :
    ∃ w', Taken u' calls' w' ∧ w.Alike w' := by
  induction h generalizing u' calls' with
  | none w =>
    cases hagain
    exact ⟨u', .none u', hlike⟩
  | step hcall _ ih =>
    cases hagain with
    | cons hfirst hrest =>
      obtain ⟨v', hcall', hlike', hlevel⟩ := hlike.perform hfirst hcall
      obtain ⟨w', htaken, hw⟩ := ih (hlevel ▸ hrest) hlike'
      exact ⟨w', .step hcall' htaken, hw⟩

end SourceLabel.Zip
