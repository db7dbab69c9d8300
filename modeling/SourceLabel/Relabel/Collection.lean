import SourceLabel.Relabel.Device
import SourceLabel.Relabel.Patch
import SourceLabel.Relabel.Pool

/-!
# The first pass: collecting classes

Every class of the input is read and relabelled, and kept in a pool.
-/
namespace SourceLabel.Relabel

structure Collection where
  pool : ClassPool := {}
  parsed : Nat := 0
  relabelled : Nat := 0
  /-- Classes without a label that could be read. -/
  unlabelled : Nat := 0

namespace Collection

def take (c : Collection) (l : Walk.Leaf) (p : Patched) : Collection where
  pool := (c.pool.insert l.key ⟨l.path, p.classFile, p.change = .changed⟩).2
  parsed := c.parsed + 1
  relabelled := if p.change = .changed then c.relabelled + 1 else c.relabelled
  unlabelled := if p.change = .unlabelled then c.unlabelled + 1 else c.unlabelled

def step (policy : Policy) (c : Collection) (event : Walk.Event) :
    Except Error Collection × List Act :=
  match event with
  | .enter _ | .leave _ => (.ok c, [])
  | .leaf l =>
    if l.isClass then
      match patch policy l with
      | .error e => (.error e, [])
      | .ok p => (.ok (c.take l p), p.told.map .tell)
    else (.ok c, [])

end Collection
end SourceLabel.Relabel
