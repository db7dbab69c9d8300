import SourceLabel.Proofs.Machine.ClassFile
import SourceLabel.Proofs.Machine.Walk

/-!
# No bytes trap the readers

Whatever bytes the readers are given, they come to a result or to a failure that they return, the one that is
defined: no sum passes a word, no difference is negative, no slice lies outside of what is sliced, no list is
asked for that cannot be, and no loop goes on without an end. This holds for an archive that is opened and then
asked for any entries, in any order, whether earlier calls have failed or not; for a walk under any file name;
and for a class that is parsed and then asked about.
-/
namespace SourceLabel.Machine

/-- Opens the bytes as an archive and makes the calls on it, one after another, with the stream as opening has
left it. -/
def useArchive (b : Bytes) (qs : List Query) (pos : Nat) : Guarded Error (List (Except Error Reply)) := do
  let (archive, pos) ← openStream b pos
  runAll archive b qs pos

def useClass (b : Bytes) (qs : List Parser.Question) : Guarded ClassError (List Parser.Value) := do
  let c ← Parser.parse b
  (qs.mapM (Parser.Question.run c) : Checked _)

variable {b : Bytes}

theorem useArchive_eq (hb : b.length < lengthBound) (qs : List Query) (pos : Nat) :
    useArchive b qs pos = answer ((Zip.Archive.parse b).map fun archive => qs.map (Query.reply archive b)) := by
  obtain ⟨pos', hopen⟩ := openStream_eq hb pos
  rw [useArchive, hopen]
  cases Zip.Archive.parse b with
  | error e => rfl
  | ok archive =>
    simp only [Except.map, answer_ok_bind, runAll_eq]
    rfl

theorem Parser.mapM_run_eq {c : ClassFile} (hc : c.WellFormed) (qs : List Question) :
    qs.mapM (Question.run c) = .ok (qs.map (Question.value c)) := by
  induction qs with
  | nil => rfl
  | cons q qs ih =>
    rw [List.mapM_cons, Question.run_eq hc, ok_bind, ih]
    rfl

theorem useClass_eq (hb : b.length < lengthBound) (qs : List Parser.Question) :
    useClass b qs = answer ((ClassFile.parse b).map fun c => qs.map (Parser.Question.value c)) := by
  rw [useClass, Parser.parse_eq hb]
  cases hparse : ClassFile.parse b with
  | error e => rfl
  | ok c =>
    rw [answer_ok_bind, Parser.mapM_run_eq (ClassFile.parse_eq_ok_iff.mp hparse).1]
    rfl

/-- All that the readers do with bytes of any length that can be held in memory comes to the result or the
failure that is defined, without a trap. So many steps are enough for a walk over any of them. -/
theorem readers_answer (hb : b.length < lengthBound) :
    (∀ qs pos, useArchive b qs pos =
        answer ((Zip.Archive.parse b).map fun archive => qs.map (Query.reply archive b))) ∧
      (∀ name pos steps, walkSteps ≤ steps →
        walk steps name b pos = answer ((Walk.start name b).map fun begun => begun.1.events b)) ∧
      ∀ qs, useClass b qs = answer ((ClassFile.parse b).map fun c => qs.map (Parser.Question.value c)) :=
  ⟨useArchive_eq hb, fun name pos _ hsteps => walk_eq hb name pos hsteps, useClass_eq hb⟩

theorem readers_answer_shortCount :
    Zip.Archive.shortCount.length < lengthBound ∧
      (∀ qs pos, useArchive Zip.Archive.shortCount qs pos = answer ((Zip.Archive.parse Zip.Archive.shortCount).map
        fun archive => qs.map (Query.reply archive Zip.Archive.shortCount))) ∧
      (∀ name pos, walk walkSteps name Zip.Archive.shortCount pos =
        answer ((Walk.start name Zip.Archive.shortCount).map fun begun =>
          begun.1.events Zip.Archive.shortCount)) ∧
      ∀ qs, useClass Zip.Archive.shortCount qs =
        answer ((ClassFile.parse Zip.Archive.shortCount).map fun c => qs.map (Parser.Question.value c)) := by
  have hb : Zip.Archive.shortCount.length < lengthBound := by decide +kernel
  obtain ⟨harchive, hwalk, hclass⟩ := readers_answer hb
  exact ⟨hb, harchive, fun name pos => hwalk name pos walkSteps (Nat.le_refl _), hclass⟩

end SourceLabel.Machine
