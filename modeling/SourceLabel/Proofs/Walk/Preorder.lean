import SourceLabel.Proofs.Result
import SourceLabel.Proofs.Walk.Opened
import SourceLabel.Proofs.Walk.Tree
import SourceLabel.Proofs.Zip.Opening

/-!
# A walk is the recursive traversal

A walk keeps a stack of open containers and goes on by one event at a time. What it has still to yield is
read off the stack: for each open container, the traversals of the entries after its position, and then
the container itself. A step takes the first element away from this list, so the events of a walk over a
file are the pre-order traversal of the tree of the file, cut at the first failure.
-/
namespace SourceLabel.Walk

open Container SourceLabel.Walk.Tree

/-! ## What is still to come -/

/-- The trees of the entries of an open container that have not been visited. -/
def Frame.trees (plan : UnpackPlan) (file : Bytes) (f : Frame) : List Tree :=
  (f.archive.entries.toList.zipIdx.drop f.next).map fun p =>
    ofEntry plan f.container.path f.container.key f.stage f.archive (f.source.bytes file) p.2 p.1

def Frame.remaining (plan : UnpackPlan) (file : Bytes) (f : Frame) : List (Except Error Event) :=
  preorderAll (f.trees plan file) ++ [.ok (.leave f.container)]

def remaining (w : Walk) (file : Bytes) : List (Except Error Event) :=
  w.pending.toList.map .ok ++ w.frames.flatMap (Frame.remaining w.plan file)

theorem Frame.trees_of_none {plan : UnpackPlan} {file : Bytes} {f : Frame}
    (h : f.archive.entries[f.next]? = none) : f.trees plan file = [] := by
  have hs : f.archive.entries.size ≤ f.next := Array.getElem?_eq_none_iff.mp h
  rw [trees, List.drop_eq_nil_of_le (by simpa using hs), List.map_nil]

theorem Frame.trees_of_some {plan : UnpackPlan} {file : Bytes} {f : Frame} {entry : Zip.Entry}
    (h : f.archive.entries[f.next]? = some entry) :
    f.trees plan file =
      ofEntry plan f.container.path f.container.key f.stage f.archive (f.source.bytes file) f.next
        entry :: ({ f with next := f.next + 1 } : Frame).trees plan file := by
  obtain ⟨hs, he⟩ := Array.getElem?_eq_some_iff.mp h
  have hz : f.next < f.archive.entries.toList.zipIdx.length := by simpa using hs
  have hp : f.archive.entries.toList.zipIdx[f.next] = (entry, f.next) := by simp [he]
  rw [trees, List.drop_eq_getElem_cons hz, List.map_cons, hp]
  rfl

/-- Visiting an entry yields what comes first in the traversal of its tree, and opens what the rest of
that traversal is read off. -/
theorem Frame.visit_preorder (plan : UnpackPlan) (file : Bytes) (f : Frame) (index : Nat)
    (entry : Zip.Entry) :
    (ofEntry plan f.container.path f.container.key f.stage f.archive (f.source.bytes file) index
      entry).preorder =
      match f.visit plan file index entry with
      | .error e => [.error e]
      | .ok v => .ok v.event :: v.opened?.toList.flatMap (Frame.remaining plan file) := by
  rw [ofEntry]
  cases hr : f.archive.readRaw (f.source.bytes file) index with
  | error e => simp [Frame.visit, hr, preorder, Except.mapError, bind, Except.bind]
  | ok raw =>
    simp only [Frame.visit, hr, ofAttempt_ok, Except.mapError, bind, Except.bind]
    split
    · next hs => simp [hs, preorder, pure, Except.pure]
    · next opener position hs =>
      simp only [hs]
      cases hu : ({ entry with localExtra := raw.localExtra } : Zip.Entry).unpack raw.data with
      | error e => simp [preorder]
      | ok data =>
        rw [ofAttempt_ok, ofContainer]
        cases hp : Zip.Archive.parse data with
        | error e => simp [openArchive, hp, preorder, bind, Except.bind]
        | ok archive =>
          simp [openArchive, hp, preorder, bind, Except.bind, pure, Except.pure, Frame.remaining,
            Frame.trees, Source.bytes]

/-! ## One step -/

/-- A step yields the first of what is still to come, and leaves the rest. -/
theorem next_remaining (w : Walk) (file : Bytes) (h : w.isDone = false) :
    match (w.next file).result with
    | none => w.remaining file = []
    | some (.error e) => ∃ rest, w.remaining file = .error e :: rest
    | some (.ok event) =>
      w.remaining file = .ok event :: (w.next file).walk.remaining file ∧
        (w.next file).walk.isDone = false := by
  have hstep := steps_next w file
  generalize w.next file = step at hstep ⊢
  cases hstep with
  | ended hdone =>
    rw [hdone] at h
    exact nomatch h
  | pending | finish => simp [remaining]
  | leave plan outer he => simp [remaining, Frame.remaining, Frame.trees_of_none he, preorderAll]
  | @fail plan f entry e outer he hvisit =>
    have hv := f.visit_preorder plan file f.next entry
    rw [hvisit] at hv
    simp [remaining, Frame.remaining, Frame.trees_of_some he, preorderAll, hv]
  | @visit plan f entry v outer he hvisit =>
    have hv := f.visit_preorder plan file f.next entry
    rw [hvisit] at hv
    simp [remaining, Frame.remaining, Frame.trees_of_some he, preorderAll, hv]

/-! ## The end of a walk -/

theorem entryPotential_pos (stages : Nat) : 0 < entryPotential stages := by
  cases stages <;> simp only [entryPotential] <;> omega

theorem entryPotential_mono {m n : Nat} (h : m ≤ n) : entryPotential m ≤ entryPotential n := by
  induction h with
  | refl => exact Nat.le_refl _
  | step _ ih => simp only [entryPotential]; omega

theorem potential_eq (w : Walk) :
    w.potential = w.pending.toList.length + (w.frames.map (Frame.potential w.plan)).sum := by
  obtain ⟨plan, frames, pending, isDone⟩ := w
  simp only [potential]
  generalize pending.toList.length = n
  induction frames generalizing n with
  | nil => simp
  | cons f outer ih => simp only [List.foldl_cons, ih, List.map_cons, List.sum_cons]; omega

/-- The entries of an archive, whose count is a field of 16 bits, cost less at a later stage than one entry
of an earlier stage. -/
theorem count_mul_entryPotential_lt {count left earlier : Nat} (hc : count < 65536) (hl : left < earlier) :
    1 + count * entryPotential left < entryPotential earlier := by
  obtain ⟨k, hk⟩ : ∃ k, earlier = k + 1 := ⟨earlier - 1, by omega⟩
  have hm : entryPotential left ≤ entryPotential k := entryPotential_mono (by omega)
  have hle : count * entryPotential left ≤ 65536 * entryPotential k :=
    Nat.mul_le_mul (Nat.le_of_lt hc) hm
  rw [hk, entryPotential]
  omega

/-- What is opened at an entry costs less than the entry. -/
theorem Frame.visit_potential_lt {plan : UnpackPlan} {file : Bytes} {f : Frame} {index : Nat}
    {entry : Zip.Entry} {v : Visit} (h : f.visit plan file index entry = .ok v) :
    (v.opened?.toList.map (Frame.potential plan)).sum <
      entryPotential (plan.stages.length - (f.stage + 1)) := by
  obtain ⟨raw, -, hvisit⟩ := visit_eq_ok h
  rcases hvisit with ⟨payload, -, rfl⟩ | ⟨stage, g, data, told, hs, -, hparse, -, hnext, -, -, -, rfl⟩
  · exact entryPotential_pos _
  · have hb := UnpackPlan.stage?_bounds hs
    have hn := Zip.Archive.size_lt_of_parse hparse
    simp only [Option.toList, List.map_cons, List.map_nil, List.sum_cons, List.sum_nil, Frame.potential, hnext,
      Nat.sub_zero, Nat.add_zero]
    exact count_mul_entryPotential_lt hn (by omega)

/-- Each event uses up some of the potential. -/
theorem next_potential_lt {w : Walk} {file : Bytes} {event : Event}
    (h : (w.next file).result = some (.ok event)) : (w.next file).walk.potential < w.potential := by
  have hstep := steps_next w file
  generalize w.next file = step at hstep h ⊢
  rw [potential_eq, potential_eq]
  cases hstep with
  | ended | finish | fail => exact nomatch h
  | pending => simp
  | leave =>
    simp only [Frame.potential, List.map_cons, List.sum_cons]
    omega
  | @visit plan f entry v outer he hvisit =>
    have hlt := Frame.visit_potential_lt hvisit
    have hs : f.next < f.archive.entries.size := (Array.getElem?_eq_some_iff.mp he).1
    obtain ⟨k, hk⟩ : ∃ k, f.archive.entries.size - f.next = k + 1 :=
      ⟨f.archive.entries.size - (f.next + 1), by omega⟩
    have hk' : f.archive.entries.size - (f.next + 1) = k := by omega
    simp only [Option.toList, List.map_append, List.map_cons, List.sum_append, List.sum_cons, Frame.potential, hk, hk',
      Nat.add_mul, Nat.one_mul] at hlt ⊢
    omega

/-- A walk over a container begins with less potential than an entry has before three stages. -/
theorem potential_opened_lt {plan : UnpackPlan} {container : Opened} {archive : Zip.Archive} {source : Source}
    {position : Nat} (hplan : plan.stages.length ≤ 3) (hsize : archive.entries.size < 65536) :
    (⟨plan, [⟨container, archive, source, position, 0⟩], some (.enter container), false⟩ : Walk).potential <
      entryPotential 3 := by
  have hmono : entryPotential (plan.stages.length - (position + 1)) ≤ entryPotential 2 :=
    entryPotential_mono (by omega)
  have hmul := Nat.mul_le_mul (Nat.le_of_lt_succ hsize) hmono
  simp only [potential, List.foldl_cons, List.foldl_nil, Option.toList, List.length_singleton, Frame.potential,
    Nat.sub_zero]
  simp only [entryPotential] at hmul ⊢
  omega

theorem potential_lt_of_start {name : String} {file : Bytes} {w : Walk} {told : List Record}
    (h : start name file = .ok (w, told)) : w.potential < entryPotential 3 := by
  unfold start at h
  dsimp only at h
  split at h
  · obtain ⟨rfl, -⟩ := Prod.mk.inj (Except.ok.inj h)
    exact show 1 < entryPotential 3 by decide
  · next stage position hs =>
    obtain ⟨opened, hopen, hstart⟩ := Result.bind_eq_ok.mp h
    obtain ⟨rfl, -⟩ := Prod.mk.inj (Except.ok.inj hstart)
    have hparse := parse_of_openArchive (Result.mapError_eq_ok.mp hopen)
    exact potential_opened_lt (UnpackPlan.length_forInput_le name) (Zip.Archive.size_lt_of_parse hparse)

/-! ## Whole walks -/

/-- The walk yields these events and then ends, by the failure if there is one. -/
inductive Yields (file : Bytes) : Walk → List Event → Option Error → Prop
  | done {w : Walk} : (w.next file).result = none → Yields file w [] none
  | failed {w : Walk} {e : Error} : (w.next file).result = some (.error e) → Yields file w [] (some e)
  | event {w : Walk} {event : Event} {events : List Event} {failure : Option Error} :
      (w.next file).result = some (.ok event) → Yields file (w.next file).walk events failure →
      Yields file w (event :: events) failure

theorem yields_of_remaining {w : Walk} (file : Bytes) (h : w.isDone = false) :
    Yields file w (untilFailure (w.remaining file)).1 (untilFailure (w.remaining file)).2 := by
  generalize hr : w.remaining file = rest
  induction rest generalizing w with
  | nil =>
    have hn := next_remaining w file h
    split at hn
    · next hnone => exact .done hnone
    · obtain ⟨rest, he⟩ := hn
      exact absurd (hr.symm.trans he) (by simp)
    · exact absurd (hr.symm.trans hn.1) (by simp)
  | cons first rest ih =>
    have hn := next_remaining w file h
    split at hn
    · exact absurd (hr.symm.trans hn) (by simp)
    · next e herror =>
      obtain ⟨rest', he⟩ := hn
      obtain ⟨rfl, -⟩ := List.cons.inj (hr.symm.trans he)
      exact .failed herror
    · next event hok =>
      obtain ⟨rfl, hrest⟩ := List.cons.inj (hr.symm.trans hn.1)
      exact .event hok (ih hn.2 hrest.symm)

theorem Yields.length_le {file : Bytes} {w : Walk} {events : List Event} {failure : Option Error}
    (h : Yields file w events failure) : events.length ≤ w.potential := by
  induction h with
  | done _ => exact Nat.zero_le _
  | failed _ => exact Nat.zero_le _
  | event hok _ ih =>
    have hlt := next_potential_lt hok
    simp only [List.length_cons]
    omega

theorem Yields.collect {file : Bytes} {w : Walk} {events : List Event} {failure : Option Error}
    (h : Yields file w events failure) (fuel : Nat) (hf : events.length < fuel)
    (before : List Event) :
    collect file fuel w before = (before.reverse ++ events, failure) := by
  induction h generalizing fuel before with
  | done hr =>
    obtain ⟨fuel, rfl⟩ : ∃ n, fuel = n + 1 := ⟨fuel - 1, by omega⟩
    simp [Walk.collect, hr]
  | failed hr =>
    obtain ⟨fuel, rfl⟩ : ∃ n, fuel = n + 1 := ⟨fuel - 1, by omega⟩
    simp [Walk.collect, hr]
  | event hr _ ih =>
    obtain ⟨fuel, rfl⟩ : ∃ n, fuel = n + 1 := ⟨fuel - 1, by simp only [List.length_cons] at hf; omega⟩
    simp only [List.length_cons] at hf
    simp [Walk.collect, hr, ih fuel (by omega)]

theorem Yields.events_eq {file : Bytes} {w : Walk} {events : List Event} {failure : Option Error}
    (h : Yields file w events failure) : w.events file = (events, failure) := by
  have hf : events.length < w.potential + 1 := Nat.lt_succ_of_le h.length_le
  exact h.collect _ hf []

/-! ## From the beginning -/

/-- A walk begins with the whole traversal before it, or fails where the traversal fails at once. -/
theorem start_remaining (name : String) (file : Bytes) :
    match start name file with
    | .error e => (ofFile name file).preorder = [.error e]
    | .ok (w, _) => w.isDone = false ∧ w.remaining file = (ofFile name file).preorder := by
  cases hs : (UnpackPlan.forInput name).stage? name true 0 with
  | none => simp [start, ofFile, hs, remaining, preorder, pure, Except.pure]
  | some found =>
    obtain ⟨opener, position⟩ := found
    simp only [start, ofFile, hs]
    rw [ofContainer]
    cases hp : Zip.Archive.parse file with
    | error e =>
      simp [openArchive, hp, preorder, NestedPath.toString_root, Except.mapError, bind, Except.bind]
    | ok archive =>
      simp [openArchive, hp, preorder, Except.mapError, bind, Except.bind, pure, Except.pure, remaining,
        Frame.remaining, Frame.trees, Source.bytes]

theorem remaining_of_start {name : String} {file : Bytes} {w : Walk} {told : List Record}
    (h : start name file = .ok (w, told)) :
    w.isDone = false ∧ w.remaining file = (ofFile name file).preorder := by
  have hs := start_remaining name file
  rw [h] at hs
  exact hs

theorem preorder_of_start {name : String} {file : Bytes} {e : Error} (h : start name file = .error e) :
    (ofFile name file).preorder = [.error e] := by
  have hs := start_remaining name file
  rw [h] at hs
  exact hs

/-- The events of a walk over a file are the pre-order traversal of the tree of the file up to the first
failure, and the walk ends there. In the tree each entry lies at the path of its container followed by its
name, and under the key of its container followed by its position in the directory. -/
theorem start_yields_preorder (name : String) (file : Bytes) :
    (ofFile name file).At ⟨name, []⟩ [] none ∧
      match start name file with
      | .error e => untilFailure (ofFile name file).preorder = ([], some e)
      | .ok (w, _) =>
        Yields file w (untilFailure (ofFile name file).preorder).1
            (untilFailure (ofFile name file).preorder).2 ∧
          w.events file = untilFailure (ofFile name file).preorder := by
  refine ⟨ofFile_at name file, ?_⟩
  have hs := start_remaining name file
  split at hs
  · rw [hs]
    rfl
  · have hy := yields_of_remaining file hs.1
    rw [hs.2] at hy
    exact ⟨hy, hy.events_eq⟩

end SourceLabel.Walk
