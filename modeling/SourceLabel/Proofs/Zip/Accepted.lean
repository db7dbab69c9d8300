import SourceLabel.Proofs.Zip.Refusal

/-!
# What a writer has accepted

Whoever asks a writer for something sees the answers. They tell which entries the archive has by now: for each call
that was answered well one header and one payload, which depend on the level that was set last. What a writer
holds, and the numbers that it keeps, are those of these entries, whatever was refused in between.
-/
namespace SourceLabel.Zip

/-- The items that a request adds to an archive, going by the answer to it. -/
def Request.items (level : Deflate.Level) : Request → Except Error Unit → List (Entry × Bytes)
  | .perform call, .ok () => [(call.header level, call.payload level)]
  | _, _ => []

/-- The level at which contents are packed after a request. -/
def Request.levelAfter (level : Deflate.Level) : Request → Deflate.Level
  | .setLevel level => level
  | _ => level

/-- The items that requests have added to an archive, going by the answers to them. -/
def accepted (level : Deflate.Level) : List (Request × Except Error Unit) → List (Entry × Bytes)
  | [] => []
  | (request, answer) :: rest => request.items level answer ++ accepted (request.levelAfter level) rest

/-- The numbers of a tally are those of the items. -/
structure Tally.Counts (t : Tally) (items : List (Entry × Bytes)) : Prop where
  files : t.files = items.countP fun item => !item.1.isDirectory
  directories : t.directories = items.countP fun item => item.1.isDirectory
  totalSize : t.totalSize = (items.map fun item => item.1.size.toNat).sum

namespace Tally

variable {t : Tally} {items : List (Entry × Bytes)}

theorem counts_nil : ({} : Tally).Counts [] := ⟨rfl, rfl, rfl⟩

theorem Counts.recount (h : t.Counts items) (n : Nat) : (t.recount n).Counts items :=
  ⟨h.files, h.directories, h.totalSize⟩

theorem Counts.count (h : t.Counts items) (e : Entry) (payload : Bytes) :
    (t.count e).Counts (items ++ [(e, payload)]) := by
  unfold Tally.count
  split
  · next hdirectory =>
    constructor
    · simp [List.countP_append, hdirectory, h.files]
    · simp [List.countP_append, hdirectory, h.directories]
    · simp [h.totalSize]
  · next hfile =>
    constructor
    · simp [List.countP_append, hfile, h.files]
    · simp [List.countP_append, hfile, h.directories]
    · simp [h.totalSize]

theorem Counts.length (h : t.Counts items) : items.length = t.files + t.directories := by
  rw [h.files, h.directories, Nat.add_comm]
  simpa using List.length_eq_countP_add_countP (fun item : Entry × Bytes => item.1.isDirectory) (l := items)

end Tally

namespace Writer

variable {w v : Writer} {items : List (Entry × Bytes)}

/-- The writer holds the items, and has counted them. -/
structure Books (w : Writer) (items : List (Entry × Bytes)) : Prop extends w.Holds items where
  counts : w.tally.Counts items

theorem books_nil (level : Deflate.Level) : Books { level } [] :=
  ⟨holds_nil level [], Tally.counts_nil⟩

theorem tally_of_perform {call : Call} (h : call.perform w = (.ok (), v)) :
    ∃ n, v.tally = (w.tally.recount n).count (call.header w.level) := by
  cases call with
  | add template data =>
    simp only [Call.perform, add] at h
    split at h
    · cases (Prod.mk.inj h).1
    · next e payload hprepare =>
      obtain ⟨rfl, -, -⟩ := prepare_eq_ok hprepare
      obtain ⟨offset, -, rfl⟩ := put_eq_ok h
      exact ⟨1, rfl⟩
  | copy header payload =>
    simp only [Call.perform, copy] at h
    split at h
    · obtain ⟨offset, -, rfl⟩ := put_eq_ok h
      exact ⟨0, rfl⟩
    · cases (Prod.mk.inj h).1

theorem level_of_perform {call : Call} {answer : Except Error Unit} (h : call.perform w = (answer, v)) :
    v.level = w.level := by
  cases answer with
  | error fault => rw [eq_recount_of_refused h]; rfl
  | ok _ =>
    obtain ⟨-, tally, hput⟩ := put_of_perform h
    exact (put_level_comment hput).1

/-- One request adds what its answer says, and nothing else. -/
theorem Books.answer (h : w.Books items) (request : Request) :
    (request.answer w).2.Books (items ++ request.items w.level (request.answer w).1) ∧
      (request.answer w).2.level = request.levelAfter w.level := by
  cases request with
  | setLevel level =>
    rw [Request.items, List.append_nil]
    · exact ⟨⟨h.toHolds.congr rfl rfl, h.counts⟩, rfl⟩
    · exact nofun
  | setComment comment =>
    rw [Request.items, List.append_nil]
    · exact ⟨⟨h.toHolds.congr rfl rfl, h.counts⟩, rfl⟩
    · exact nofun
  | perform call =>
    rw [Request.answer]
    cases hcall : call.perform w with
    | mk answer v =>
      refine ⟨?_, level_of_perform hcall⟩
      cases answer with
      | error fault =>
        rw [Request.items, List.append_nil, eq_recount_of_refused hcall]
        · exact ⟨h.toHolds.congr rfl rfl, h.counts.recount _⟩
        · exact nofun
      | ok _ =>
        obtain ⟨n, htally⟩ := tally_of_perform hcall
        refine ⟨(h.toHolds.perform hcall).1, ?_⟩
        rw [htally]
        exact (h.counts.recount n).count _ _

theorem Books.serve (h : w.Books items) (requests : List Request) :
    (w.serve requests).2.Books (items ++ accepted w.level (requests.zip (w.serve requests).1)) := by
  induction requests generalizing w items with
  | nil => rwa [Writer.serve, List.zip_nil_left, accepted, List.append_nil]
  | cons request requests ih =>
    obtain ⟨hanswer, hlevel⟩ := h.answer request
    have hrest := ih hanswer
    rw [hlevel, List.append_assoc] at hrest
    exact hrest

end Writer
end SourceLabel.Zip
