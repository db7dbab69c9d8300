import SourceLabel.ClassFile.Format

/-!
# The label of a class

The SourceFile attribute of a class holds the index of a text: the label. A new label takes the place of
the old one in the constant pool. If other things refer to the same text, they are changed with it; so
another attribute may come to be the one that holds the label, and its payload may have any length.
-/
namespace SourceLabel.ClassFile

/-- What the attribute that holds the label says. -/
inductive LabelIndex where
  /-- There is no such attribute. -/
  | absent
  /-- The payload of this length cannot hold an index. -/
  | short (length : Nat)
  | at (index : Index)
deriving DecidableEq, Repr

def labelIndex (c : ClassFile) : LabelIndex :=
  match c.labelAttribute? with
  | none => .absent
  | some a =>
    match a.payload with
    | hi :: lo :: _ => .at (Bytes.ofBE16 hi lo)
    | payload => .short payload.length

/-- The label, if there is one that is well-formed. -/
def label? (c : ClassFile) : Option String :=
  match c.labelIndex with
  | .at i => c.pool.text? i
  | _ => none

/-- The class with another label. -/
def setLabel (c : ClassFile) (s : String) : Except ClassError ClassFile :=
  match c.labelIndex with
  | .absent => .error ⟨0, .noLabel c.name⟩
  | .short length => .error ⟨0, .labelLength length⟩
  | .at i =>
    match c.pool.setText i s with
    | .error fault => .error ⟨0, fault⟩
    | .ok pool => .ok { c with pool }

end SourceLabel.ClassFile
