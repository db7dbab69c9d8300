import SourceLabel.ClassFile.Label
import SourceLabel.Log
import SourceLabel.Policy
import SourceLabel.Walk.Event

/-!
# Giving a class its new label
-/
namespace SourceLabel.Relabel

/-- What became of the label of a class. -/
inductive Change where
  /-- There is no label that could be read. -/
  | unlabelled
  | kept
  | changed
deriving DecidableEq, Repr

structure Patched where
  classFile : ClassFile
  change : Change
  /-- What is told about it. -/
  told : List Record := []
deriving DecidableEq, Repr

/-- Gives a class the label that the policy wants. Its failure says where the class lies. -/
def relabel (policy : Policy) (path : NestedPath) (c : ClassFile) : Except Error Patched :=
  match c.label? with
  | none =>
    let told :=
      match c.labelIndex with
      | .at i => [Record.undecodable path i]
      | _ => []
    .ok ⟨c, .unlabelled, told⟩
  | some old =>
    let new := policy.relabel c.name old
    if new = old then .ok ⟨c, .kept, [.labelKept path old]⟩
    else
      match c.setLabel new with
      | .error cause => .error (.malformedClass path.toString cause)
      | .ok c => .ok ⟨c, .changed, [.labelChanged path old new]⟩

/-- Reads the class that an entry holds, and relabels it. -/
def patch (policy : Policy) (l : Walk.Leaf) : Except Error Patched := do
  let data ← l.contents
  match ClassFile.parse data with
  | .error cause => throw (.malformedClass l.path.toString cause)
  | .ok c => relabel policy l.path c

end SourceLabel.Relabel
