import SourceLabel.Proofs.Machine.Archive
import SourceLabel.Proofs.Container.Nesting
import SourceLabel.Proofs.Walk.Preorder
import SourceLabel.Proofs.Zip.Unpacking

/-!
# Walks on a machine

The machine keeps a stream for each open container, and each stream stands where the last entry was read. It
has no measure of how much is still to come: it goes on until nothing is left. That it comes to an end within a
number of steps that holds for all files is proved by following it with the walk as it is defined, whose
potential falls.
-/
namespace SourceLabel.Machine

open Container

/-! ## The machine -/

structure Frame where
  container : Walk.Opened
  archive : Zip.Archive
  /-- The bytes of the stream that the archive is read from. -/
  data : Bytes
  position : Nat
  /-- The position of the stage that opened the container. -/
  stage : Nat
  /-- The position of the next entry in the directory. -/
  next : Nat := 0

structure Stream where
  plan : UnpackPlan
  /-- The open containers, the innermost first. -/
  stack : List Frame := []
  pending : Option Walk.Event := none
  isDone : Bool := false

def placed {m : Type → Type} [Monad m] {α : Type} (path : String) (x : ExceptT Error m α) : ExceptT Error m α :=
  ExceptT.adapt (Error.inContainer path) x

/-- Opens the archive in a stream of its own, and says where the stream stands then. -/
def openStream (b : Bytes) (pos : Nat) : Guarded Error (Zip.Archive × Nat) :=
  ExceptT.mk do
    let (r, pos) ← (openArchive b).run.run pos
    return r.map (·, pos)

/-- Begins a walk over a file of this name, whose stream stands at `pos`. -/
def openInput (name : String) (b : Bytes) (pos : Nat) : Guarded Error Stream := do
  let plan := UnpackPlan.forInput name
  let root : NestedPath := ⟨name, []⟩
  match plan.stage? name true 0 with
  | none => return { plan, pending := some (.leaf ⟨root, [], .plain b⟩) }
  | some (_, position) =>
    let (archive, pos) ← placed name (openStream b pos)
    let stage ← (fetch plan.stages[position]? : Checked Stage)
    let container : Walk.Opened := ⟨root, [], stage.kind, none, archive.comment⟩
    return { plan, stack := [⟨container, archive, b, pos, position, 0⟩], pending := some (.enter container) }

/-- Opens the container that an entry holds, with the stage at `position` of the plan. -/
def openNested (plan : UnpackPlan) (path : NestedPath) (key : EntryKey) (header : Zip.Entry) (raw : Bytes)
    (position : Nat) : Guarded Error (Walk.Event × Option Frame) := do
  let data ← placed path.toString (decompress header raw)
  let (archive, pos) ← placed path.toString (openStream data 0)
  let stage ← (fetch plan.stages[position]? : Checked Stage)
  let container : Walk.Opened := ⟨path, key, stage.kind, some header, archive.comment⟩
  return (.enter container, some ⟨container, archive, data, pos, position, 0⟩)

def visit (plan : UnpackPlan) (f : Frame) (index : Nat) : Reading Error (Walk.Event × Option Frame) := do
  let entry ← fetch f.archive.entries[index]?
  let path := f.container.path.child entry.name.text
  let key := f.container.key.child index
  let raw ← placed f.container.path.toString (readRaw f.archive f.data index)
  let header := { entry with localExtra := raw.localExtra }
  let start ← add f.stage 1
  match plan.stage? header.name.text false start with
  | none => return (.leaf ⟨path, key, .packed header raw.data⟩, none)
  | some (_, position) => openNested plan path key header raw.data position

def Stream.next (s : Stream) : Checked (Option (Except Error Walk.Event) × Stream) :=
  if s.isDone then return (none, s)
  else
    match s.pending with
    | some event => return (some (.ok event), { s with pending := none })
    | none =>
      match s.stack with
      | [] => return (none, { s with isDone := true })
      | f :: outer =>
        if f.archive.entries.size ≤ f.next then
          return (some (.ok (.leave f.container)), { s with stack := outer })
        else do
          let next ← add f.next 1
          let (r, position) ← (visit s.plan f f.next).run.run f.position
          match r with
          | .error e => return (some (.error e), { s with stack := [], isDone := true })
          | .ok (event, opened?) =>
            return (some (.ok event),
              { s with stack := opened?.toList ++ { f with next, position } :: outer })

/-- The events up to the end or the first error, if they come to an end within so many steps. -/
def Stream.collect : (steps : Nat) → Stream → List Walk.Event →
    Checked (List Walk.Event × Option Error)
  | 0, _, _ => .error .endless
  | steps + 1, s, events => do
    let (r, s) ← s.next
    match r with
    | none => return (events.reverse, none)
    | some (.error e) => return (events.reverse, some e)
    | some (.ok event) => s.collect steps (event :: events)

def walk (steps : Nat) (name : String) (b : Bytes) (pos : Nat) :
    Guarded Error (List Walk.Event × Option Error) := do
  let s ← openInput name b pos
  s.collect steps []

/-! ## Streams of their own -/

variable {b : Bytes} {plan : UnpackPlan} {α : Type}

@[simp] theorem placed_answer (path : String) (r : Except Error α) :
    placed path (answer r) = answer (r.mapError (Error.inContainer path)) := rfl

theorem Answers.placed {x : Reading Error α} {pos : Nat} {r : Except Error α} (h : Answers x pos r)
    (path : String) : Answers (Machine.placed path x) pos (r.mapError (Error.inContainer path)) := by
  obtain ⟨pos', hrun⟩ := h
  refine ⟨pos', ?_⟩
  show (x.run.run pos).map _ = _
  rw [hrun]
  rfl

theorem openStream_eq (hb : b.length < lengthBound) (pos : Nat) :
    ∃ pos', openStream b pos = answer ((Zip.Archive.parse b).map (·, pos')) := by
  obtain ⟨pos', hrun⟩ := openArchive_answers hb pos
  refine ⟨pos', ?_⟩
  unfold openStream
  rw [hrun]
  rfl

theorem length_lt_of_unpack {e : Zip.Entry} {raw data : Bytes} (h : e.unpack raw = .ok data) :
    data.length < lengthBound := by
  obtain ⟨-, hlength, -⟩ := Zip.Entry.unpack_eq_ok_iff.mp h
  have hsize := e.size.toNat_lt
  have hbound := lengthBound_eq
  omega

/-- The machine opens what an entry holds as the walk does. -/
theorem openNested_eq {stage : Stage} {position : Nat} (hstage : plan.stages[position]? = some stage)
    (path : NestedPath) (key : EntryKey) (header : Zip.Entry) (raw : Bytes) :
    ∃ pos, openNested plan path key header raw position = answer (do
      let data ← (header.unpack raw).mapError (Error.inContainer path.toString)
      let archive ← (Zip.Archive.parse data).mapError (Error.inContainer path.toString)
      let container : Walk.Opened := ⟨path, key, stage.kind, some header, archive.comment⟩
      return (.enter container, some ⟨container, archive, data, pos, position, 0⟩)) := by
  unfold openNested
  rw [decompress_eq, placed_answer, hstage, fetch_some]
  cases hunpack : header.unpack raw with
  | error e => exact ⟨0, rfl⟩
  | ok data =>
    obtain ⟨pos, hopen⟩ := openStream_eq (length_lt_of_unpack hunpack) 0
    refine ⟨pos, ?_⟩
    simp only [Except.mapError, answer_ok_bind, ok_bind, hopen, placed_answer]
    cases Zip.Archive.parse data <;> rfl

/-! ## Following the walk -/

/-- The frame of the machine stands for the frame of the walk, and is as frames are that come of opening. -/
structure Mirrors (file : Bytes) (f : Frame) (g : Walk.Frame) : Prop where
  container : f.container = g.container
  archive : f.archive = g.archive
  data : f.data = g.source.bytes file
  stage : f.stage = g.stage
  next : f.next = g.next
  size_lt : g.archive.entries.size < 65536
  stage_lt : g.stage < 3

/-- The machine has got as far as the walk. -/
structure Tracks (file : Bytes) (s : Stream) (w : Walk) : Prop where
  plan : s.plan = w.plan
  stages_le : w.plan.stages.length ≤ 3
  stack : List.Forall₂ (Mirrors file) s.stack w.frames
  pending : s.pending = w.pending
  isDone : s.isDone = w.isDone

variable {file : Bytes} {f : Frame} {g : Walk.Frame} {s : Stream} {w : Walk}

/-- The machine reads an entry as the walk does, and what it opens stands for what the walk opens. -/
theorem Mirrors.visit (h : Mirrors file f g) (hplan : plan.stages.length ≤ 3) {index : Nat} {entry : Zip.Entry}
    (hentry : g.archive.entries[index]? = some entry) (pos : Nat) :
    ∃ r, Answers (Machine.visit plan f index) pos r ∧
      match g.visit plan file index entry with
      | .error e => r = .error e
      | .ok v => ∃ opened?, r = .ok (v.event, opened?) ∧
          List.Forall₂ (Mirrors file) opened?.toList v.opened?.toList := by
  obtain ⟨container, archive, data, position, stage, next⟩ := f
  obtain ⟨rfl, rfl, rfl, rfl, rfl, -, hstage⟩ := h
  have hword := wordBound_eq
  have hstart : add g.stage 1 = .ok (g.stage + 1) := add_eq (by omega)
  have hraw := (readRaw_answers g.archive (g.source.bytes file) index pos).placed g.container.path.toString
  have hvisit : Machine.visit plan ⟨g.container, g.archive, g.source.bytes file, position, g.stage, g.next⟩ index =
      (do
        let raw ← placed g.container.path.toString (readRaw g.archive (g.source.bytes file) index)
        match plan.stage? entry.name.text false (g.stage + 1) with
        | none =>
          return (.leaf ⟨g.container.path.child entry.name.text, g.container.key.child index,
            .packed { entry with localExtra := raw.localExtra } raw.data⟩, none)
        | some (_, position) =>
          openNested plan (g.container.path.child entry.name.text) (g.container.key.child index)
            { entry with localExtra := raw.localExtra } raw.data position) := by
    unfold Machine.visit
    dsimp only
    rw [hentry, fetch_some, lift_checked_bind, hstart]
    rfl
  rw [hvisit, Walk.Frame.visit]
  cases hr : g.archive.readRaw (g.source.bytes file) index with
  | error e =>
    rw [hr] at hraw
    exact ⟨_, .bind_error hraw, rfl⟩
  | ok raw =>
    rw [hr] at hraw
    obtain ⟨pos', hrun⟩ := hraw
    simp only [Except.mapError, ok_bind]
    cases hs : plan.stage? entry.name.text false (g.stage + 1) with
    | none => exact ⟨_, .bind hrun (.pure _), _, rfl, .nil⟩
    | some found =>
      obtain ⟨stage, position⟩ := found
      obtain ⟨-, hposition, -⟩ := UnpackPlan.stage?_eq_some hs
      obtain ⟨pos'', hopen⟩ := openNested_eq hposition (g.container.path.child entry.name.text)
        (g.container.key.child index) { entry with localExtra := raw.localExtra } raw.data
      refine ⟨_, .bind hrun (.of_eq hopen), ?_⟩
      cases hunpack : ({ entry with localExtra := raw.localExtra } : Zip.Entry).unpack raw.data with
      | error e => rfl
      | ok data =>
        simp only [Except.mapError, ok_bind, Walk.openArchive]
        cases hparse : Zip.Archive.parse data with
        | error e => rfl
        | ok archive =>
          have hlt : position < plan.stages.length := (List.getElem?_eq_some_iff.mp hposition).1
          exact ⟨_, rfl, .cons ⟨rfl, rfl, rfl, rfl, rfl, Zip.Archive.size_lt_of_parse hparse,
            Nat.lt_of_lt_of_le hlt hplan⟩ .nil⟩

/-- A step of the machine is a step of the walk. -/
theorem Tracks.next (h : Tracks file s w) :
    ∃ s', s.next = .ok ((w.next file).result, s') ∧ Tracks file s' (w.next file).walk := by
  obtain ⟨plan, stack, pending, isDone⟩ := s
  obtain ⟨plan', frames, pending', isDone'⟩ := w
  obtain ⟨rfl, hstages, hstack, rfl, rfl⟩ := h
  dsimp only at hstages hstack
  cases isDone with
  | true => exact ⟨_, rfl, rfl, hstages, hstack, rfl, rfl⟩
  | false =>
    cases pending with
    | some event => exact ⟨_, rfl, rfl, hstages, hstack, rfl, rfl⟩
    | none =>
      cases hstack with
      | nil => exact ⟨_, rfl, rfl, hstages, .nil, rfl, rfl⟩
      | @cons f g stack frames hf hrest =>
        obtain ⟨container, archive, data, position, stage, index⟩ := f
        obtain ⟨rfl, rfl, rfl, rfl, rfl, hsize, hstage⟩ := hf
        cases hentry : g.archive.entries[g.next]? with
        | none =>
          have hle : g.archive.entries.size ≤ g.next := Array.getElem?_eq_none_iff.mp hentry
          simp only [Stream.next, Walk.next, hentry, Bool.false_eq_true, if_false, hle, if_true]
          exact ⟨_, rfl, rfl, hstages, hrest, rfl, rfl⟩
        | some entry =>
          have hlt : g.next < g.archive.entries.size := (Array.getElem?_eq_some_iff.mp hentry).1
          have hle : ¬ g.archive.entries.size ≤ g.next := Nat.not_le.mpr hlt
          have hword := wordBound_eq
          have hadd : add g.next 1 = .ok (g.next + 1) := add_eq (by omega)
          have hmirrors : Mirrors file
              ⟨g.container, g.archive, g.source.bytes file, position, g.stage, g.next⟩ g :=
            ⟨rfl, rfl, rfl, rfl, rfl, hsize, hstage⟩
          obtain ⟨r, ⟨position', hrun⟩, hr⟩ := hmirrors.visit hstages hentry position
          simp only [Stream.next, Walk.next, hentry, Bool.false_eq_true, if_false, hle, hadd, ok_bind, hrun]
          cases hvisit : g.visit plan file g.next entry with
          | error e =>
            rw [hvisit] at hr
            subst hr
            exact ⟨_, rfl, rfl, hstages, .nil, rfl, rfl⟩
          | ok v =>
            rw [hvisit] at hr
            obtain ⟨opened?, rfl, hopened⟩ := hr
            refine ⟨_, rfl, rfl, hstages, ?_, rfl, rfl⟩
            exact List.rel_append hopened (.cons ⟨rfl, rfl, rfl, rfl, rfl, hsize, hstage⟩ hrest)

/-- The machine collects what the walk yields, if it may go on for longer than the walk does. -/
theorem Tracks.collect (h : Tracks file s w) {events : List Walk.Event} {failure : Option Error}
    (hyields : Walk.Yields file w events failure) {steps : Nat} (hsteps : events.length < steps)
    (before : List Walk.Event) : s.collect steps before = .ok (before.reverse ++ events, failure) := by
  induction hyields generalizing s steps before with
  | done hresult =>
    obtain ⟨steps, rfl⟩ : ∃ n, steps = n + 1 := ⟨steps - 1, by omega⟩
    obtain ⟨s', hs', -⟩ := h.next
    simp only [Stream.collect, hs', hresult, ok_bind, List.append_nil]
    rfl
  | failed hresult =>
    obtain ⟨steps, rfl⟩ : ∃ n, steps = n + 1 := ⟨steps - 1, by omega⟩
    obtain ⟨s', hs', -⟩ := h.next
    simp only [Stream.collect, hs', hresult, ok_bind, List.append_nil]
    rfl
  | event hresult _ ih =>
    simp only [List.length_cons] at hsteps
    obtain ⟨steps, rfl⟩ : ∃ n, steps = n + 1 := ⟨steps - 1, by omega⟩
    obtain ⟨s', hs', hnext⟩ := h.next
    simp only [Stream.collect, hs', hresult, ok_bind]
    rw [ih hnext (by omega), List.reverse_cons, List.append_assoc]
    rfl

/-! ## Whole walks -/

/-- So many steps are enough for every walk. -/
def walkSteps : Nat := Walk.entryPotential 3

theorem openInput_eq (hb : b.length < lengthBound) (name : String) (pos : Nat) :
    match Walk.start name b with
    | .error e => openInput name b pos = answer (.error e)
    | .ok (w, _) => ∃ s, openInput name b pos = answer (.ok s) ∧ Tracks b s w ∧ w.potential < walkSteps := by
  have hplan := UnpackPlan.length_forInput_le name
  unfold openInput Walk.start
  dsimp only
  cases hs : (UnpackPlan.forInput name).stage? name true 0 with
  | none =>
    have hlt : 1 < walkSteps := by decide
    exact ⟨_, rfl, ⟨rfl, hplan, .nil, rfl, rfl⟩, hlt⟩
  | some found =>
    obtain ⟨stage, position⟩ := found
    obtain ⟨-, hposition, -⟩ := UnpackPlan.stage?_eq_some hs
    have hlt : position < (UnpackPlan.forInput name).stages.length := (List.getElem?_eq_some_iff.mp hposition).1
    obtain ⟨pos', hopen⟩ := openStream_eq hb pos
    simp only [hopen, placed_answer, hposition, fetch_some, Walk.openArchive]
    cases hparse : Zip.Archive.parse b with
    | error e => rfl
    | ok archive =>
      have hsize := Zip.Archive.size_lt_of_parse hparse
      refine ⟨_, rfl, ⟨rfl, hplan, .cons ?_ .nil, rfl, rfl⟩, Walk.potential_opened_lt hplan hsize⟩
      exact ⟨rfl, rfl, rfl, rfl, rfl, hsize, Nat.lt_of_lt_of_le hlt hplan⟩

/-- The machine walks over a file as the definition does, and comes to an end. -/
theorem walk_eq (hb : b.length < lengthBound) (name : String) (pos : Nat) {steps : Nat}
    (hsteps : walkSteps ≤ steps) :
    walk steps name b pos = answer ((Walk.start name b).map fun begun => begun.1.events b) := by
  have hopen := openInput_eq hb name pos
  unfold walk
  cases hstart : Walk.start name b with
  | error e =>
    rw [hstart] at hopen
    rw [hopen]
    rfl
  | ok begun =>
    obtain ⟨w, told⟩ := begun
    rw [hstart] at hopen
    obtain ⟨s, hs, htracks, hpotential⟩ := hopen
    have hyields := Walk.yields_of_remaining b (Walk.remaining_of_start hstart).1
    have hevents := hyields.events_eq
    have hcollect := htracks.collect hyields (Nat.lt_of_le_of_lt hyields.length_le
      (Nat.lt_of_lt_of_le hpotential hsteps)) []
    rw [hs, answer_ok_bind, hcollect]
    simp only [Except.map, hevents]
    rfl

end SourceLabel.Machine
