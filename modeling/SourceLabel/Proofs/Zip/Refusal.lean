import SourceLabel.Proofs.Zip.Written

/-!
# Calls that are refused

A writer checks everything before it writes, so a call that is refused leaves the sink, the directory and the
comment as they are. Of the numbers that it keeps, it changes all but one when an entry has been written: the number
of entries that were packed goes up as soon as contents are packed, and whether there is room for the entry is
looked at afterwards. So a refused call is forgotten exactly if it packed nothing. Otherwise the writer goes on as it
would have done without the call, with that number higher by one.
-/
namespace SourceLabel.Zip

/-- Are there contents that the call packs, with nothing to be said against them? -/
def Call.packs (level : Deflate.Level) : Call → Bool
  | .add template data => (Writer.prepare level template data).isOk
  | .copy .. => false

/-- What a writer can be asked for before it is finished. -/
inductive Request where
  | setLevel (level : Deflate.Level)
  | setComment (comment : Bytes)
  | perform (call : Call)
deriving DecidableEq, Repr

def Request.answer (w : Writer) : Request → Except Error Unit × Writer
  | .setLevel level => (.ok (), { w with level })
  | .setComment comment => (.ok (), { w with comment })
  | .perform call => call.perform w

def Tally.recount (t : Tally) (n : Nat) : Tally :=
  { t with recompressed := t.recompressed + n }

def Finished.recount (done : Finished) (n : Nat) : Finished :=
  { done with tally := done.tally.recount n }

namespace Writer

def serve (w : Writer) : List Request → List (Except Error Unit) × Writer
  | [] => ([], w)
  | request :: requests =>
    let (answer, v) := request.answer w
    let (answers, u) := serve v requests
    (answer :: answers, u)

def recount (w : Writer) (n : Nat) : Writer :=
  { w with tally := w.tally.recount n }

variable {v w : Writer} {call : Call} {fault : Error}

@[simp] theorem recount_zero (w : Writer) : w.recount 0 = w := rfl

theorem recount_ne (w : Writer) (n : Nat) : w.recount (n + 1) ≠ w := by
  intro h
  have hcount : w.tally.recompressed + (n + 1) = w.tally.recompressed :=
    congrArg (fun u => u.tally.recompressed) h
  omega

/-! ## The number has no influence -/

@[simp] theorem count_recount (t : Tally) (n : Nat) (e : Entry) : (t.recount n).count e = (t.count e).recount n := by
  unfold Tally.count
  split <;> rfl

theorem put_recount (w : Writer) (n : Nat) (e : Entry) (payload : Bytes) :
    (w.recount n).put e payload = ((w.put e payload).1, (w.put e payload).2.recount n) := by
  have hplace : (w.recount n).place e = w.place e := rfl
  unfold put
  rw [hplace]
  cases w.place e with
  | error fault => rfl
  | ok offset =>
    have happend : (w.recount n).append e offset payload = (w.append e offset payload).recount n :=
      congrArg (fun tally => { w.append e offset payload with tally }) (count_recount w.tally n e)
    simp only [happend]

theorem perform_recount (call : Call) (w : Writer) (n : Nat) :
    call.perform (w.recount n) = ((call.perform w).1, (call.perform w).2.recount n) := by
  cases call with
  | add template data =>
    have hlevel : (w.recount n).level = w.level := rfl
    simp only [Call.perform, add, hlevel]
    cases prepare w.level template data with
    | error fault => rfl
    | ok packed =>
      obtain ⟨e, payload⟩ := packed
      have hcount : ({ w.recount n with tally.recompressed := (w.recount n).tally.recompressed + 1 } : Writer) =
          { w with tally.recompressed := w.tally.recompressed + 1 }.recount n :=
        congrArg (fun recompressed => { w with tally.recompressed := recompressed })
          (Nat.add_right_comm w.tally.recompressed n 1)
      exact (congrArg (·.put e payload) hcount).trans (put_recount _ n e payload)
  | copy header payload =>
    simp only [Call.perform, copy]
    split
    · exact put_recount w n header payload
    · rfl

theorem serve_recount (w : Writer) (n : Nat) (requests : List Request) :
    (w.recount n).serve requests = ((w.serve requests).1, (w.serve requests).2.recount n) := by
  induction requests generalizing w with
  | nil => rfl
  | cons request requests ih =>
    have hstep : request.answer (w.recount n) = ((request.answer w).1, (request.answer w).2.recount n) := by
      cases request with
      | setLevel level => rfl
      | setComment comment => rfl
      | perform call => exact perform_recount call w n
    simp only [serve, hstep, ih]

@[simp] theorem finish_recount (w : Writer) (n : Nat) :
    (w.recount n).finish = w.finish.map (Finished.recount · n) := by
  have hdirectory : (w.recount n).directory = w.directory := rfl
  have hsink : (w.recount n).sink = w.sink := rfl
  have hcomment : (w.recount n).comment = w.comment := rfl
  simp only [finish, hdirectory, hsink, hcomment]
  cases fit32 w.sink.size with
  | error fault => rfl
  | ok offset =>
    cases fit32 w.directory.length with
    | error fault => rfl
    | ok size =>
      simp only [bind, Except.bind]
      split <;> rfl

/-! ## What is left of a refused call -/

theorem eq_recount_of_refused (h : call.perform w = (.error fault, v)) :
    v = w.recount (call.packs w.level).toNat := by
  cases call with
  | add template data =>
    simp only [Call.perform, add] at h
    cases hprepare : prepare w.level template data with
    | error e =>
      rw [hprepare] at h
      have hpacks : (Call.add template data).packs w.level = false := by rw [Call.packs, hprepare]; rfl
      rw [hpacks]
      exact (Prod.mk.inj h).2.symm
    | ok packed =>
      rw [hprepare] at h
      have hpacks : (Call.add template data).packs w.level = true := by rw [Call.packs, hprepare]; rfl
      rw [hpacks]
      exact put_of_error h
  | copy header payload =>
    simp only [Call.perform, copy] at h
    split at h
    · exact put_of_error h
    · exact (Prod.mk.inj h).2.symm

/-- A call that is refused leaves the writer as it is exactly if it packs nothing. Whatever the writer is asked for later
is answered as if the call had not been made, and so is the archive that is finished in the end; only the number of
packed entries is higher by one if the call packed contents. -/
theorem unchanged_iff_of_refused (h : call.perform w = (.error fault, v)) :
    (v = w ↔ call.packs w.level = false) ∧ ∀ requests,
      (v.serve requests).1 = (w.serve requests).1 ∧
      (v.serve requests).2 = (w.serve requests).2.recount (call.packs w.level).toNat ∧
      (v.serve requests).2.finish =
        (w.serve requests).2.finish.map (Finished.recount · (call.packs w.level).toNat) := by
  have hv := eq_recount_of_refused h
  refine ⟨?_, fun requests => ?_⟩
  · rw [hv]
    cases call.packs w.level with
    | false => exact iff_of_true (recount_zero w) rfl
    | true => exact iff_of_false (recount_ne w 0) nofun
  · rw [hv, serve_recount]
    exact ⟨rfl, rfl, finish_recount _ _⟩

end Writer

/-- An empty file with an extra field that is too long for its length. -/
def overlongEntry : Entry where
  name := ⟨"e", by decide, by decide⟩
  rawName := [0x65]
  method := .stored
  extra := List.replicate 65536 0

theorem perform_overlongEntry : (Call.add overlongEntry []).perform {} =
    (.error (.invalidFormat (.fieldTooLong "e")), ({} : Writer).recount 1) := by
  have hprepare : Writer.prepare .standard overlongEntry [] = .ok (overlongEntry, []) :=
    Writer.prepared_iff.mpr ⟨rfl, rfl, rfl, rfl, rfl⟩
  have hfits : Writer.fits overlongEntry = false := by
    refine Bool.eq_false_of_not_eq_true fun hfits => ?_
    have hextra := (Writer.fits_iff.mp hfits).2.2.1
    rw [overlongEntry, List.length_replicate] at hextra
    exact absurd hextra (by decide)
  have hplace : ({} : Writer).place overlongEntry = .error (.invalidFormat (.fieldTooLong "e")) := by
    have hsize : Writer.fit32 ({} : Writer).sink.size = .ok 0 := rfl
    simp only [Writer.place, hsize, hfits]
    rfl
  have hput : ({} : Writer).put overlongEntry [] = (.error (.invalidFormat (.fieldTooLong "e")), {}) := by
    rw [Writer.put, hplace]
  have hadd := Writer.put_recount {} 1 overlongEntry []
  rw [hput] at hadd
  rw [Call.perform, Writer.add_of_prepare (w := {}) hprepare]
  exact hadd

theorem unchanged_iff_of_refused_overlongEntry :
    (({} : Writer).recount 1 = {} ↔ (Call.add overlongEntry []).packs .standard = false) ∧ ∀ requests,
      ((({} : Writer).recount 1).serve requests).1 = (({} : Writer).serve requests).1 ∧
      ((({} : Writer).recount 1).serve requests).2 =
        (({} : Writer).serve requests).2.recount ((Call.add overlongEntry []).packs .standard).toNat ∧
      ((({} : Writer).recount 1).serve requests).2.finish =
        (({} : Writer).serve requests).2.finish.map
          (Finished.recount · ((Call.add overlongEntry []).packs .standard).toNat) :=
  Writer.unchanged_iff_of_refused perform_overlongEntry

/-- A call that was refused is counted in the archive that is finished. -/
theorem refused_counted :
    ∃ call fault v done done', Call.perform {} call = (.error fault, v) ∧ v ≠ {} ∧
      ({} : Writer).finish = .ok done ∧ v.finish = .ok done' ∧ done'.bytes = done.bytes ∧
      done.tally.recompressed = 0 ∧ done'.tally.recompressed = 1 := by
  have hfinish : ∃ done, ({} : Writer).finish = .ok done ∧ done.tally.recompressed = 0 := ⟨_, by rfl, rfl⟩
  obtain ⟨done, hdone, hcount⟩ := hfinish
  refine ⟨_, _, _, done, done.recount 1, perform_overlongEntry, Writer.recount_ne {} 0, hdone, ?_, rfl, hcount, ?_⟩
  · rw [Writer.finish_recount, hdone]
    rfl
  · exact congrArg (· + 1) hcount

end SourceLabel.Zip
