import SourceLabel.Proofs.Machine.Basic
import SourceLabel.Proofs.Zip.Accepted

/-!
# Writers on a machine

A sink cannot be asked how much has been written to it. So on a machine a writer adds up the lengths of what it
writes, in a word, and takes the places of local headers from this sum. No request brings the sum out of step with
the sink, whether it is answered well or refused, and the sum never gets close to the bound of a word. So the
machine answers as the writer that looks at its sink.
-/
namespace SourceLabel.Machine

open Zip

/-! ## The machine -/

/-- A writer that adds up how many bytes it has written. -/
structure Recorder extends Zip.Writer where
  offset : Nat := 0

abbrev Recording := ExceptT Error (StateT Recorder Checked)

namespace Recorder

def place (e : Entry) : Recording UInt32 := do
  let r ← get
  if Writer.maxEntries ≤ r.central.size then
    throw (.unsupportedFeature .zip64)
  let localOffset ← MonadExcept.ofExcept (Writer.fit32 r.offset)
  if Writer.fits e then return localOffset
  else throw (.invalidFormat (.fieldTooLong e.name.text))

def writeEntry (e : Entry) (payload : Bytes) : Recording Unit := do
  let localOffset ← place e
  let r ← get
  let length ← (add e.localHeader.length payload.length : Checked Nat)
  let offset ← (add r.offset length : Checked Nat)
  set { r with
    sink := r.sink ++ e.localHeader ++ payload
    offset
    tally := r.tally.count e
    central := r.central.push (e, localOffset) }

def perform : Call → Recording Unit
  | .add template data => do
    let (e, payload) ← MonadExcept.ofExcept (Writer.prepare (← get).level template data)
    modify fun r => { r with tally.recompressed := r.tally.recompressed + 1 }
    writeEntry e payload
  | .copy header payload => do
    if payload.length ≠ header.packedSize.toNat then
      throw (.invalidFormat (.wrongPayloadSize header.name.text payload.length header.packedSize.toNat))
    writeEntry header payload

def answer : Request → Recording Unit
  | .setLevel level => modify fun r => { r with level }
  | .setComment comment => modify fun r => { r with comment }
  | .perform call => perform call

def serve : List Request → StateT Recorder Checked (List (Except Error Unit))
  | [] => return []
  | request :: requests => do
    let answer ← (answer request).run
    let answers ← serve requests
    return answer :: answers

/-! ## The sum is the length -/

/-- The machine in step with a writer. -/
def ofWriter (w : Zip.Writer) : Recorder :=
  { w with offset := w.sink.size }

variable {α β : Type} {x : Recording α} {k : α → Recording β} {r r' : Recorder} {w : Zip.Writer} {e : Entry}
  {payload : Bytes} {items : List (Entry × Bytes)}

theorem run_bind_ok {a : α} (hx : x.run.run r = .ok (.ok a, r')) :
    (x >>= k).run.run r = (k a).run.run r' := by
  change (x.run.run r).bind _ = _
  rw [hx]
  rfl

theorem run_bind_error {fault : Error} (hx : x.run.run r = .ok (.error fault, r')) :
    (x >>= k).run.run r = .ok (.error fault, r') := by
  change (x.run.run r).bind _ = _
  rw [hx]
  rfl

@[simp] theorem run_get_bind {k : Recorder → Recording β} : (get >>= k).run.run r = (k r).run.run r := rfl

theorem run_lift_bind {x : Checked α} {a : α} (hx : x = .ok a) :
    ((liftM x : Recording α) >>= k).run.run r = (k a).run.run r := by
  subst hx
  rfl

theorem run_ofExcept (y : Except Error α) (r : Recorder) :
    (MonadExcept.ofExcept y : Recording α).run.run r = .ok (y, r) := by
  cases y <;> rfl

theorem place_eq (w : Zip.Writer) (e : Entry) :
    (place e).run.run (ofWriter w) = .ok (w.place e, ofWriter w) := by
  have hcentral : (ofWriter w).central = w.central := rfl
  have hoffset : (ofWriter w).offset = w.sink.size := rfl
  rw [place, run_get_bind, hcentral, hoffset, Writer.place]
  by_cases hfull : Writer.maxEntries ≤ w.central.size
  · rw [if_pos hfull, if_pos hfull]
    rfl
  · rw [if_neg hfull, if_neg hfull]
    have hfit := run_ofExcept (Writer.fit32 w.sink.size) (ofWriter w)
    cases h : Writer.fit32 w.sink.size with
    | error fault =>
      rw [h] at hfit
      exact run_bind_error hfit
    | ok localOffset =>
      rw [h] at hfit
      refine (run_bind_ok hfit).trans ?_
      cases hfits : Writer.fits e
      · rfl
      · rfl

theorem size_append (sink : Array UInt8) (header payload : Bytes) :
    (sink ++ header ++ payload).size = sink.size + (header.length + payload.length) := by
  rw [← Array.length_toList, Array.toList_appendList, Array.toList_appendList, List.length_append,
    List.length_append, Array.length_toList, Nat.add_assoc]

/-- What is written for an entry stays far below the bound of a word. -/
theorem length_lt_of_place {localOffset : UInt32} (h : w.place e = .ok localOffset)
    (hpayload : payload.length < 4294967296) :
    w.sink.size + (e.localHeader.length + payload.length) < wordBound := by
  obtain ⟨-, hoffset, hfits⟩ := Writer.place_eq_ok h
  obtain ⟨hname, hextra, -, -⟩ := Writer.fits_iff.mp hfits
  have hplace := toNat_of_fit32 hoffset
  have hlt := localOffset.toNat_lt
  have hheader := Entry.length_localHeader e
  have hfixed : LocalFields.length = 30 := rfl
  have hmax : Writer.maxFieldLength = 65535 := rfl
  have hword := wordBound_eq
  omega

theorem writeEntry_eq (hpayload : payload.length < 4294967296) :
    (writeEntry e payload).run.run (ofWriter w) =
      .ok ((w.put e payload).1, ofWriter (w.put e payload).2) := by
  have hplace := place_eq w e
  unfold Writer.put
  cases h : w.place e with
  | error fault =>
    rw [h] at hplace
    exact run_bind_error hplace
  | ok localOffset =>
    rw [h] at hplace
    have hbound := length_lt_of_place h hpayload
    have hlength : add e.localHeader.length payload.length = .ok (e.localHeader.length + payload.length) :=
      add_eq (by omega)
    have hoffset : add (ofWriter w).offset (e.localHeader.length + payload.length) =
        .ok (w.sink ++ e.localHeader ++ payload).size := by
      rw [size_append]
      exact add_eq hbound
    rw [writeEntry, run_bind_ok hplace, run_get_bind, run_lift_bind hlength, run_lift_bind hoffset]
    rfl

theorem length_lt_of_packedSize (h : payload.length = e.packedSize.toNat) : payload.length < 4294967296 :=
  h ▸ e.packedSize.toNat_lt

theorem perform_eq (w : Zip.Writer) (call : Call) :
    (perform call).run.run (ofWriter w) = .ok ((call.perform w).1, ofWriter (call.perform w).2) := by
  cases call with
  | add template data =>
    have hprepare := run_ofExcept (Writer.prepare w.level template data) (ofWriter w)
    have hlevel : (ofWriter w).level = w.level := rfl
    rw [perform, run_get_bind, hlevel, Call.perform, Writer.add]
    cases h : Writer.prepare w.level template data with
    | error fault =>
      rw [h] at hprepare
      exact run_bind_error hprepare
    | ok packed =>
      obtain ⟨e, payload⟩ := packed
      rw [h] at hprepare
      have hpacked := toNat_of_fit32 (Writer.prepared_iff.mp h).packedSize
      refine (run_bind_ok hprepare).trans ?_
      exact writeEntry_eq (length_lt_of_packedSize hpacked.symm)
  | copy header payload =>
    rw [perform, Call.perform, Writer.copy]
    by_cases hsize : payload.length = header.packedSize.toNat
    · rw [if_neg (not_not.mpr hsize), if_pos hsize]
      exact writeEntry_eq (length_lt_of_packedSize hsize)
    · rw [if_pos hsize, if_neg hsize]
      rfl

theorem answer_eq (w : Zip.Writer) (request : Request) :
    (answer request).run.run (ofWriter w) = .ok ((request.answer w).1, ofWriter (request.answer w).2) := by
  cases request with
  | setLevel level => rfl
  | setComment comment => rfl
  | perform call => exact perform_eq w call

/-- The machine answers all requests, as the writer does, and stays in step with it. -/
theorem serve_eq (w : Zip.Writer) (requests : List Request) :
    (serve requests).run (ofWriter w) = .ok ((w.serve requests).1, ofWriter (w.serve requests).2) := by
  induction requests generalizing w with
  | nil => rfl
  | cons request requests ih =>
    have hanswer := answer_eq w request
    have hrest := ih (request.answer w).2
    rw [serve]
    change ((answer request).run.run (ofWriter w)).bind _ = _
    rw [hanswer]
    change ((serve requests).run (ofWriter (request.answer w).2)).bind _ = _
    rw [hrest]
    rfl

/-! ## What the machine has written -/

/-- What there is to a machine that has accepted these items. -/
structure Consistent (r : Recorder) (items : List (Entry × Bytes)) : Prop where
  sink : r.sink.toList = items.flatMap fun item => item.1.localHeader ++ item.2
  offset : r.offset = r.sink.size
  central : r.central.size = items.length
  places : ∀ i (hi : i < items.length), ∃ localOffset, r.central[i]? = some (items[i].1, localOffset) ∧
    localOffset.toNat = ((items.take i).map fun item => item.1.localHeader.length + item.2.length).sum ∧
    localOffset.toNat < 4294967296
  entries : r.central.size = r.tally.files + r.tally.directories
  entries_le : r.central.size ≤ 65534
  totalSize : r.tally.totalSize = (items.map fun item => item.1.size.toNat).sum

theorem length_image (items : List (Entry × Bytes)) :
    (image items).length = (items.map fun item => item.1.localHeader.length + item.2.length).sum := by
  simp only [image, List.length_flatMap, List.length_append]

theorem consistent_of_books (h : w.Books items) : (ofWriter w).Consistent items where
  sink := h.sink
  offset := rfl
  central := h.size
  places i hi := by
    obtain ⟨localOffset, hentry, hplace⟩ := h.central i hi
    rw [length_image] at hplace
    exact ⟨localOffset, hentry, hplace, localOffset.toNat_lt⟩
  entries := h.size.trans h.counts.length
  entries_le := h.size.trans_le h.length_le
  totalSize := h.counts.totalSize

/-- Whatever a new writer is asked for, and whatever it refuses of that: the machine answers as the writer does. Then
its sink holds the accepted items one behind the other, its sum is the length of the sink, each local header has
its place behind the items before it, and the numbers that are kept are those of the items. -/
theorem serve_consistent (level : Deflate.Level) (requests : List Request) :
    ∃ answers r, (serve requests).run { level } = .ok (answers, r) ∧
      Writer.serve { level } requests = (answers, r.toWriter) ∧
      r.Consistent (accepted level (requests.zip answers)) := by
  have hbooks := (Writer.books_nil level).serve requests
  rw [List.nil_append] at hbooks
  exact ⟨_, _, serve_eq { level } requests, rfl, consistent_of_books hbooks⟩

end Recorder
end SourceLabel.Machine
