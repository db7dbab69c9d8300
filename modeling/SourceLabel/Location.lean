/-!
# Places in a nest of containers

A path names a place by the file that is read and then, container by container, by entry names. Names
may repeat inside an archive, so a path need not be unique. A key is: it counts entries instead of
naming them. The key of the file itself is empty.
-/
namespace SourceLabel

/-- Does a list come before another, if single elements come before others as `lt` says? Lists are compared
position by position, and a list comes before its extensions. -/
def precedes (lt : α → α → Bool) : List α → List α → Bool
  | _, [] => false
  | [], _ :: _ => true
  | a :: as, b :: bs => lt a b || (!lt b a && precedes lt as bs)

/-- Texts are ordered by the numbers of their characters. -/
def textPrecedes (s t : String) : Bool :=
  precedes (fun c d => decide (c.toNat < d.toNat)) s.toList t.toList

structure NestedPath where
  root : String
  /-- Entry names, the outermost first. -/
  inner : List String := []
deriving DecidableEq, Repr

namespace NestedPath

def segments (p : NestedPath) : List String :=
  p.root :: p.inner

def depth (p : NestedPath) : Nat :=
  p.inner.length

def child (p : NestedPath) (entry : String) : NestedPath :=
  { p with inner := p.inner ++ [entry] }

def parent? (p : NestedPath) : Option NestedPath :=
  if p.inner.isEmpty then none else some { p with inner := p.inner.dropLast }

def name (p : NestedPath) : String :=
  p.inner.getLast?.getD p.root

/-- The path as one text, with `!/` between segments. -/
def toString (p : NestedPath) : String :=
  "!/".intercalate p.segments

instance : ToString NestedPath := ⟨toString⟩

/-- Paths are ordered segment by segment; a container comes before what is in it. -/
def lt (p q : NestedPath) : Bool :=
  precedes textPrecedes p.segments q.segments

def le (p q : NestedPath) : Bool :=
  !lt q p

end NestedPath

/-- Positions in the directories of the containers, the outermost first. -/
abbrev EntryKey := List Nat

namespace EntryKey

def child (key : EntryKey) (index : Nat) : EntryKey :=
  key ++ [index]

/-- Keys are ordered position by position; a container comes before what is in it. -/
def lt (a b : EntryKey) : Bool :=
  precedes (fun m n => decide (m < n)) a b

def le (a b : EntryKey) : Bool :=
  !lt b a

end EntryKey
end SourceLabel
