import SourceLabel.Files.Store
import SourceLabel.Relabel.Device
import SourceLabel.Relabel.Progress

/-!
# The world of a run

A run works on a store of files, reports to a progress handle, and tells what it does. While it works it
is not alone: at each moment that can be noticed from outside, others may ask it to stop or write to
files, and the device that the files are kept on may fail. What others do is a function of all the moments so
far, and so is how the device answers.
-/
namespace SourceLabel.Relabel

/-- How far a run has come. -/
inductive Phase where
  | fresh
  | collecting
  | writing
  | closed
deriving DecidableEq, Repr

def Phase.label : Phase → String
  | .fresh => "init"
  | .collecting => "pass 1 (building class pool)"
  | .writing => "pass 2 (writing output)"
  | .closed => "closed"

/-- A moment that others can notice. -/
inductive Moment where
  | told (record : Record)
  /-- The run is about to look whether it should stop. -/
  | checkpoint
deriving DecidableEq, Repr

/-- What others do at a moment. -/
structure Intervention where
  cancels : Bool := false
  /-- Files that are written, by path. -/
  writes : List (String × Bytes) := []
deriving DecidableEq, Repr

/-- What others do at a moment, given all moments before it, the last one first. -/
abbrev Outside := List Moment → Moment → Intervention

def Outside.quiet : Outside :=
  fun _ _ => {}

/-- How the device fails in a use that is made of it after these moments, the last one first. -/
abbrev Device := List Moment → Access → Option IoFault

def Device.sound : Device :=
  fun _ _ => none

structure World where
  files : Files := {}
  progress : Progress := {}
  phase : Phase := .fresh
  /-- All moments so far, the last one first. -/
  moments : List Moment := []
  outside : Outside := Outside.quiet
  device : Device := Device.sound
  /-- What the names of temporary files are made unique with. -/
  tags : List String := Files.temporaryTags

namespace World

/-- A write to a path that leads nowhere comes to nothing. -/
def writeFile (f : Files) (path : String) (b : Bytes) : Files :=
  match f.write path b with
  | .ok f => f
  | .error _ => f

/-- Others notice a moment and act. -/
def meet (w : World) (m : Moment) : World :=
  let act := w.outside w.moments m
  { w with
    files := act.writes.foldl (fun f write => writeFile f write.1 write.2) w.files
    progress := if act.cancels then w.progress.cancel else w.progress
    moments := m :: w.moments }

def told (w : World) : List Record :=
  w.moments.reverse.filterMap fun
    | .told r => some r
    | .checkpoint => none

/-- How a run that uses the device now fails, if the device does. -/
def failure? (w : World) (a : Access) : Option Error :=
  (w.device w.moments a).map a.failure

end World

/-- Work in the world that may fail. What was done before a failure stays done. -/
abbrev Session := ExceptT Error (StateM World)

namespace Session

def ofFault (r : Except IoFault α) : Session α :=
  ofExcept (r.mapError .io)

def tell (r : Record) : Session Unit :=
  modify (·.meet (.told r))

def access (a : Access) : Session Unit := do
  match (← get).failure? a with
  | none => pure ()
  | some e => throw e

def perform : Act → Session Unit
  | .tell r => tell r
  | .reach a => access a

def performAll (acts : List Act) : Session Unit :=
  acts.forM perform

def setPhase (phase : Phase) : Session Unit :=
  modify ({ · with phase })

/-- Stops the run if it heeds requests (`heeds`) and there was one. -/
def checkpoint (heeds : Bool) : Session Unit := do
  modify (·.meet .checkpoint)
  if heeds && (← get).progress.isCancelled then throw .cancelled

def removeTemporary (temporary : Files.Temporary) : Session Unit :=
  modify fun w => { w with files := w.files.remove temporary.place }

/-- Makes a temporary file and works with it. If the work fails, the file is removed. -/
def withTemporary (directory suffix : String) (act : Files.Temporary → Session α) : Session α := do
  access { operation := .create }
  let w ← get
  let (temporary, files) ← ofFault (w.files.createTemporary directory suffix w.tags)
  set { w with files }
  try act temporary
  catch e =>
    removeTemporary temporary
    throw e

end Session
end SourceLabel.Relabel
