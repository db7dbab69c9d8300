import SourceLabel.Log
import SourceLabel.Walk.Event

/-!
# Walking over a file

The walk keeps a stack of open containers, the innermost first, and yields one event at a time. The file
itself is read anew at each step, so its bytes are passed in; nested containers are unpacked into memory.
Which entries are opened is for the plan to say. An error ends the walk.

Each step uses up some of the walk's `potential`, so a walk always ends.
-/
namespace SourceLabel

namespace Walk

/-- Where the bytes of an open container are. -/
inductive Source where
  /-- The container is the file itself. -/
  | file
  | memory (data : Bytes)
deriving DecidableEq, Repr

def Source.bytes (file : Bytes) : Source → Bytes
  | .file => file
  | .memory data => data

structure Frame where
  container : Opened
  archive : Zip.Archive
  source : Source
  /-- The position of the stage that opened the container. -/
  stage : Nat
  /-- The position of the next entry in the directory. -/
  next : Nat := 0
deriving DecidableEq, Repr

/-- What became of an entry: the event, the frame of the container if it was opened, and what was told
meanwhile. -/
structure Visit where
  event : Event
  opened? : Option Frame := none
  told : List Record := []
deriving DecidableEq, Repr

/-- An archive, and what is told when it has been opened. -/
def openArchive (b : Bytes) : Except Error (Zip.Archive × Record) := do
  let archive ← Zip.Archive.parse b
  return (archive, .archiveOpened archive.entries.size archive.directoryOffset)

/-- Reads the entry at a position of the directory, and opens it if the plan says so. -/
def Frame.visit (f : Frame) (plan : Container.UnpackPlan) (file : Bytes) (index : Nat)
    (entry : Zip.Entry) : Except Error Visit := do
  let path := f.container.path.child entry.name.text
  let key := f.container.key.child index
  let raw ← (f.archive.readRaw (f.source.bytes file) index).mapError
    (Error.inContainer f.container.path.toString)
  let header := { entry with localExtra := raw.localExtra }
  match plan.stage? header.name.text false (f.stage + 1) with
  | none => return { event := .leaf ⟨path, key, .packed header raw.data⟩ }
  | some (stage, position) =>
    let data ← (header.unpack raw.data).mapError (Error.inContainer path.toString)
    let (archive, told) ← (openArchive data).mapError (Error.inContainer path.toString)
    let container : Opened := ⟨path, key, stage.kind, some header, archive.comment⟩
    return {
      event := .enter container
      opened? := some ⟨container, archive, .memory data, position, 0⟩
      told := [told, .unpacking stage.kind path archive.entries.size] }

end Walk

structure Walk where
  plan : Container.UnpackPlan
  /-- The open containers, the innermost first. -/
  frames : List Walk.Frame := []
  /-- An event that is still to be yielded before anything else. -/
  pending : Option Walk.Event := none
  isDone : Bool := false
deriving DecidableEq, Repr

namespace Walk

def start (name : String) (file : Bytes) : Except Error (Walk × List Record) := do
  let plan := Container.UnpackPlan.forInput name
  let root : NestedPath := ⟨name, []⟩
  match plan.stage? name true 0 with
  | none =>
    return ({ plan, pending := some (.leaf ⟨root, [], .plain file⟩) }, [.notContainer name])
  | some (stage, position) =>
    let (archive, told) ← (openArchive file).mapError (Error.inContainer name)
    let container : Opened := ⟨root, [], stage.kind, none, archive.comment⟩
    let frame : Frame := ⟨container, archive, .file, position, 0⟩
    return ({ plan, frames := [frame], pending := some (.enter container) }, [told])

/-- The container that a file of this name is opened as. -/
def root? (name : String) : Option NestedPath :=
  ((Container.UnpackPlan.forInput name).stage? name true 0).map fun _ => ⟨name, []⟩

/-- One step: what it yields, the walk after it, and what was told meanwhile. -/
structure Step where
  result : Option (Except Error Event)
  walk : Walk
  told : List Record := []

def next (w : Walk) (file : Bytes) : Step :=
  if w.isDone then { result := none, walk := w }
  else
    match w.pending with
    | some event => { result := some (.ok event), walk := { w with pending := none } }
    | none =>
      match w.frames with
      | [] => { result := none, walk := { w with isDone := true } }
      | f :: outer =>
        match f.archive.entries[f.next]? with
        | none => { result := some (.ok (.leave f.container)), walk := { w with frames := outer } }
        | some entry =>
          match f.visit w.plan file f.next entry with
          | .error e =>
            { result := some (.error e), walk := { w with frames := [], isDone := true } }
          | .ok visit =>
            let frames := visit.opened?.toList ++ { f with next := f.next + 1 } :: outer
            { result := some (.ok visit.event), walk := { w with frames }, told := visit.told }

/-- The container that the next step reads an entry of, if it is the file itself. -/
def reads? (w : Walk) : Option NestedPath :=
  match w.isDone, w.pending, w.frames with
  | false, none, f :: _ =>
    if f.source = .file && f.next < f.archive.entries.size then some f.container.path else none
  | _, _, _ => none

/-! ## The end of a walk -/

/-- More events than an entry can give rise to if it lies in a container with `stages` stages after the
one that opened it. -/
def entryPotential : (stages : Nat) → Nat
  | 0 => 1
  | stages + 1 => 2 + 65536 * entryPotential stages

/-- A bound for the events of a container that is open. -/
def Frame.potential (plan : Container.UnpackPlan) (f : Frame) : Nat :=
  1 + (f.archive.entries.size - f.next) * entryPotential (plan.stages.length - (f.stage + 1))

/-- A bound for the events that are still to come. -/
def potential (w : Walk) : Nat :=
  w.frames.foldl (fun total f => total + f.potential w.plan) w.pending.toList.length

/-- The events up to the end or the first error, from a file that does not change. -/
def collect (file : Bytes) : (fuel : Nat) → Walk → List Event → List Event × Option Error
  | 0, _, events => (events.reverse, none)
  | fuel + 1, w, events =>
    let step := w.next file
    match step.result with
    | none => (events.reverse, none)
    | some (.error e) => (events.reverse, some e)
    | some (.ok event) => collect file fuel step.walk (event :: events)

/-- All events of a walk, and the error that ended it early. -/
def events (w : Walk) (file : Bytes) : List Event × Option Error :=
  collect file (w.potential + 1) w []

end Walk
end SourceLabel
