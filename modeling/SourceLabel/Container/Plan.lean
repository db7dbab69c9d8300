import SourceLabel.Container.Kind
import SourceLabel.Error
import SourceLabel.Location

/-!
# Which containers are opened and closed

A plan is a list of stages. To unpack, stages run from the outside in: an entry is opened by a stage
after the one that opened the container it lies in, so no container lies in one of its own kind. To pack,
stages run from the inside out, and each packs the innermost container that is left, if it can.
-/
namespace SourceLabel.Container

inductive Stage where
  /-- The file itself is a container of this kind. -/
  | own (kind : Kind)
  /-- Entries with the extension of this kind are containers. -/
  | nested (kind : Kind)
deriving DecidableEq, Repr

namespace Stage

def kind : Stage → Kind
  | .own kind | .nested kind => kind

def isOwn : Stage → Bool
  | .own _ => true
  | .nested _ => false

end Stage

/-- The stages that open containers, the outermost first. -/
structure UnpackPlan where
  stages : List Stage
deriving DecidableEq, Repr

namespace UnpackPlan

/-- The plan for a file of this name. -/
def forInput (name : String) : UnpackPlan :=
  match Kind.ofName? name with
  | some .jar => ⟨[.own .jar]⟩
  | some .aar => ⟨[.own .aar, .nested .jar]⟩
  | some .zip => ⟨[.own .zip, .nested .aar, .nested .jar]⟩
  | none => ⟨[.nested .zip, .nested .aar, .nested .jar]⟩

/-- Does a stage open the file itself (`isRoot`) or an entry of this name? Directories are not opened. -/
def opens (name : String) (isRoot : Bool) : Stage → Bool
  | .own _ => isRoot
  | .nested kind => !isRoot && !Text.endsWith name "/" && Text.endsWith name kind.extension

/-- The first stage from position `start` on that opens what has this name, and its position. -/
def stage? (plan : UnpackPlan) (name : String) (isRoot : Bool) (start : Nat) : Option (Stage × Nat) :=
  (plan.stages.zipIdx.drop start).find? fun s => opens name isRoot s.1

end UnpackPlan

/-- The stages that pack containers, the innermost first. -/
structure PackPlan where
  stages : List Stage
deriving DecidableEq, Repr

namespace PackPlan

/-- The plan for a file of this name. -/
def forOutput (name : String) : PackPlan :=
  ⟨Kind.all.map fun kind => if Kind.ofName? name = some kind then .own kind else .nested kind⟩

/-- Does a stage pack the container of this name? A stage of the file itself packs anything. -/
def packs (stage : Stage) (name : String) : Bool :=
  stage.isOwn || Text.endsWith name stage.kind.extension

/-- The levels that are left when each stage has packed the innermost one if it can. The innermost level
comes first. -/
def leftOver : List Stage → List String → List String
  | [], levels => levels
  | _ :: _, [] => []
  | stage :: stages, level :: levels =>
    if packs stage level then leftOver stages levels else leftOver stages (level :: levels)

/-- Can a container be packed up through all levels around it? -/
def wraps (plan : PackPlan) (path : NestedPath) : Except Error Unit :=
  match leftOver plan.stages path.segments.reverse with
  | [] => .ok ()
  | level :: levels =>
    .error (.unsupportedNesting path.toString
      (.unpackable level (levels.length + 1) path.segments.length))

end PackPlan
end SourceLabel.Container
