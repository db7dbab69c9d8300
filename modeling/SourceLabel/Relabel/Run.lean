import SourceLabel.Relabel.Assembly
import SourceLabel.Relabel.Collection
import SourceLabel.Relabel.Session
import SourceLabel.Walk.Basic

/-!
# Relabelling a file

A run walks over its input twice: first it collects and relabels the classes, then it puts the output
together. The output is kept apart until it is complete and takes its place at once, so a run that fails
or is stopped leaves the files as they were.
-/
namespace SourceLabel.Relabel

structure Options where
  policy : Policy := {}
  level : Deflate.Level := .standard
  /-- Does the run report to the progress handle and heed requests to stop? -/
  watched : Bool := false
deriving DecidableEq, Repr

structure Report where
  parsed : Nat
  relabelled : Nat
  unlabelled : Nat
  resources : Nat
  containers : Nat
  /-- The size of the output. -/
  bytes : Nat
deriving DecidableEq, Repr

/-- Goes on with a walk over the file at a place. The device may fail to read an entry of the file. -/
def World.goOn (w : World) (place : Place) (walk : Walk) : Walk.Step :=
  match walk.reads?.bind fun path => w.failure? { operation := .read, container? := path } with
  | some e => { result := some (.error e), walk }
  | none => walk.next (w.files.contents place)

namespace Options

open Session

def startPass (o : Options) (pass : Nat) : Session Unit :=
  if o.watched then modify fun w => { w with progress := w.progress.startPass pass } else pure ()

def record (o : Options) : Walk.Event → Session Unit
  | .leaf l =>
    if o.watched then modify fun w => { w with progress := w.progress.record l.size } else pure ()
  | .enter _ | .leave _ => pure ()

def tellAll (told : List Record) : Session Unit :=
  told.forM tell

/-- Walks on over the file at a place, one step of `step` for each event. Between two events the run can
be stopped. -/
@[specialize] def sweep (o : Options) (place : Place)
    (step : σ → Walk.Event → Except Error σ × List Act) : (fuel : Nat) → Walk → σ → Session σ
  | 0, _, s => pure s
  | fuel + 1, walk, s => do
    let next := (← get).goOn place walk
    tellAll next.told
    match next.result with
    | none => return s
    | some result =>
      checkpoint o.watched
      let event ← ofExcept result
      o.record event
      let (outcome, acts) := step s event
      performAll acts
      let s ← ofExcept outcome
      sweep o place step fuel next.walk s

/-- Walks over a file from its beginning to its end. -/
@[specialize] def walkOver (o : Options) (input : String)
    (step : σ → Walk.Event → Except Error σ × List Act) (s : σ) : Session σ := do
  access { operation := .openFile }
  let files := (← get).files
  let place ← ofFault (files.openFile input)
  access { operation := .read, container? := Walk.root? (Files.fileName input) }
  let (walk, told) ← ofExcept (Walk.start (Files.fileName input) (files.contents place))
  tellAll told
  o.sweep place step (walk.potential + 1) walk s

/-- The first pass. -/
def collect (o : Options) (input : String) : Session Collection := do
  o.startPass 1
  o.walkOver input (Collection.step o.policy) {}

/-- What the device is asked for before the output takes its place. -/
def publication : List Access :=
  [.flush, .sync, .measure, .replace].map fun operation => { operation }

/-- The second pass. Yields what was assembled and the size of the output. -/
def writeOutput (o : Options) (input output : String) (pool : ClassPool) : Session (Assembly × Nat) := do
  o.startPass 2
  withTemporary (Files.parent output) "" fun temporary => do
    let assembly : Assembly := {
      plan := Container.PackPlan.forOutput (Files.fileName output)
      level := o.level }
    let assembly ← o.walkOver input (Assembly.step pool) assembly
    checkpoint o.watched
    let bytes ← ofExcept assembly.finish
    performAll (publication.map .reach)
    let files ← ofFault ((← get).files.publish temporary bytes output)
    modify ({ · with files })
    return (assembly, bytes.length)

/-- Relabels the classes of the file at `input`, and writes the result to `output`. -/
def run (o : Options) (input output : String) : Session Report := do
  setPhase .collecting
  tell (.collecting input)
  let c ← o.collect input
  tell (.collected c.parsed c.relabelled c.unlabelled)
  setPhase .writing
  tell (.writing output)
  let (a, bytes) ← o.writeOutput input output c.pool
  setPhase .closed
  tell (.wrote output bytes a.resources a.containers)
  return ⟨c.parsed, c.relabelled, c.unlabelled, a.resources, a.containers, bytes⟩

def copyInto (temporary : Files.Temporary) (path : String) : Session Unit := do
  access { operation := .copy }
  let files := (← get).files
  let place ← ofFault (files.locate path)
  match files.node? place with
  | none => throw (.io .noSuchFile)
  | some .directory => throw (.io .notARegularFile)
  | some (.file b) => modify fun w => { w with files := w.files.set temporary.place (.file b) }

/-- Relabels the classes of a file in its place. A copy beside it, with the same extension, is the input. -/
def runInPlace (o : Options) (path : String) : Session Report :=
  withTemporary (Files.parent path) (Files.extension path) fun temporary => do
    copyInto temporary path
    tell (.copied path temporary.path)
    let report ← o.run temporary.path path
    access { operation := .close }
    removeTemporary temporary
    return report

end Options
end SourceLabel.Relabel
