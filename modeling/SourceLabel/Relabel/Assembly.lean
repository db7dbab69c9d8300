import SourceLabel.Relabel.Device
import SourceLabel.Relabel.Pool
import SourceLabel.Walk.Event
import SourceLabel.Zip.Writer

/-!
# The second pass: putting the output together

The output is assembled along a walk over the input. An archive writer is open for each container that
has been entered and not yet left; a container that is left is packed into the one around it. Classes
that got another label are written anew, and everything else is copied as it is stored.
-/
namespace SourceLabel.Relabel

/-- What the output file holds. -/
inductive Target where
  /-- Bytes, and no archive is open. -/
  | bare (bytes : Bytes)
  /-- An archive that is still being written. -/
  | archive (writer : Zip.Writer)
deriving DecidableEq, Repr

structure Assembly where
  plan : Container.PackPlan
  level : Deflate.Level
  target : Target := .bare []
  /-- The writers of nested containers, the innermost first. -/
  nested : List Zip.Writer := []
  /-- Entries that are no classes. -/
  resources : Nat := 0
  /-- Nested containers that have been packed. -/
  containers : Nat := 0
deriving DecidableEq, Repr

namespace Assembly

/-- Hands an entry to the innermost writer; `act` says how it takes the entry. -/
@[inline] def withWriter (a : Assembly) (act : Zip.Writer → Except Error Unit × Zip.Writer) :
    Except Error Assembly :=
  match a with
  | ⟨plan, level, target, w :: outer, resources, containers⟩ =>
    match act w with
    | (.error e, _) => .error e
    | (.ok (), w) => .ok ⟨plan, level, target, w :: outer, resources, containers⟩
  | ⟨plan, level, .archive w, [], resources, containers⟩ =>
    match act w with
    | (.error e, _) => .error e
    | (.ok (), w) => .ok ⟨plan, level, .archive w, [], resources, containers⟩
  | ⟨_, _, .bare _, [], _, _⟩ => .error (.invalidFormat .noOpenArchive)

def writeBare (a : Assembly) (data : Bytes) : Except Error Assembly :=
  match a.target with
  | .bare b => .ok { a with target := .bare (b ++ data) }
  | .archive _ => .error (.invalidFormat .outputTaken)

def enter (a : Assembly) (c : Walk.Opened) : Except Error Assembly := do
  a.plan.wraps c.path
  if c.path.inner.isEmpty then
    match a.target with
    | .bare b =>
      return { a with target := .archive { level := a.level, comment := c.comment, sink := b.toArray } }
    | .archive _ => throw (.invalidFormat .outputTaken)
  else
    return { a with nested := { level := a.level, comment := c.comment } :: a.nested }

def copy (a : Assembly) (l : Walk.Leaf) : Except Error Assembly :=
  match l.payload with
  | .plain data => a.writeBare data
  | .packed header raw =>
    a.withWriter fun w =>
      let taken := w.copy header raw
      (taken.1.mapError (Error.inContainer l.path.toString), taken.2)

def write (a : Assembly) (l : Walk.Leaf) (data : Bytes) : Except Error Assembly :=
  match l.header? with
  | none => a.writeBare data
  | some header =>
    (a.withWriter fun w => w.add header data).mapError (Error.inContainer l.path.toString)

def leaf (a : Assembly) (pool : ClassPool) (l : Walk.Leaf) : Except Error Assembly :=
  if l.isClass then
    match pool.get? l.key with
    | none => .error (.classNotPooled l.path.toString)
    | some unit => if unit.relabelled then a.write l unit.classFile.toBytes else a.copy l
  else do
    let a ← a.copy l
    return { a with resources := a.resources + 1 }

/-- What is taken goes to the device if no nested container is open. -/
def written (direct : Bool) (outcome : Except Error Assembly) (container? : Option NestedPath) : List Act :=
  if direct && outcome.isOk then [.reach { operation := .write, container? }] else []

/-- Closes the innermost writer, and packs its archive into the one around it. -/
def leave (a : Assembly) (c : Walk.Opened) : Except Error Assembly × List Act :=
  match a.nested with
  | w :: outer =>
    match w.finish with
    | .error e => (.error e, [])
    | .ok done =>
      let finished : Act := .tell (.archiveFinished done.entries done.size)
      match c.header? with
      | none => (.error (.invalidFormat (.noHeader c.path.toString)), [finished])
      | some header =>
        let around := { a with nested := outer }
        let packed := around.withWriter fun w => w.add header done.bytes
        (packed.map (fun a => { a with containers := a.containers + 1 })
            |>.mapError (Error.inContainer c.path.toString),
          finished :: .tell (.repacked c.path (done.tally.files + done.tally.directories) done.size) ::
            written outer.isEmpty packed c.path)
  | [] =>
    match a.target with
    | .bare _ => (.error (.invalidFormat (.closedTwice c.path.toString)), [])
    | .archive w =>
      match w.finish with
      | .error e => (.error e, [])
      | .ok done =>
        (.ok { a with target := .bare done.bytes },
          [.reach { operation := .write }, .tell (.archiveFinished done.entries done.size)])

/-- Goes on by one event, and says what is done besides. -/
def step (pool : ClassPool) (a : Assembly) (event : Walk.Event) :
    Except Error Assembly × List Act :=
  match event with
  | .enter c => (a.enter c, [])
  | .leaf l =>
    let direct := a.nested.isEmpty
    let outcome := a.leaf pool l
    (outcome, written direct outcome (l.header?.map fun _ => l.path))
  | .leave c => a.leave c

/-- The bytes of the output, once every writer is closed. -/
def finish (a : Assembly) : Except Error Bytes :=
  match a.target, a.nested with
  | .bare b, [] => .ok b
  | _, _ => .error (.invalidFormat .notClosed)

end Assembly
end SourceLabel.Relabel
