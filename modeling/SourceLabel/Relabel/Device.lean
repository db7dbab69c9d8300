import SourceLabel.Error
import SourceLabel.Log

/-!
# The device

Files are kept on a device, and every use that is made of it may fail. While an archive is read from the device
or written to it, the failure is laid at a container.
-/
namespace SourceLabel.Relabel

/-- What the device is asked for. -/
inductive Operation where
  | create
  | copy
  | openFile
  | read
  | write
  | flush
  | sync
  | measure
  /-- A file is to take the place of another. -/
  | replace
  /-- A temporary file is to be closed, and removed with that. -/
  | close
deriving DecidableEq, Repr

structure Access where
  operation : Operation
  /-- The container that a failure is laid at. -/
  container? : Option NestedPath := none
deriving DecidableEq, Repr

/-- How a run fails when the device does. -/
def Access.failure (a : Access) (fault : IoFault) : Error :=
  match a.container? with
  | none => .io fault
  | some path => Error.inContainer path.toString (.io fault)

/-- What a step of a run does for others to see. -/
inductive Act where
  | tell (record : Record)
  | reach (access : Access)
deriving DecidableEq, Repr

end SourceLabel.Relabel
