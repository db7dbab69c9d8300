import SourceLabel.Proofs.Container.Nesting
import SourceLabel.Walk.Basic

/-!
# The tree of a file

A file is a tree: a container holds its entries in the order of its directory, and an entry that the plan
opens is a container again. The tree is built by recursion on containers. It ends because each nested
container is opened by a later stage than the one around it, so archives that hold themselves are finite
trees too. What cannot be read is a node of its own, and the entries after it stay in the tree.
-/
namespace SourceLabel

open Container

theorem Container.UnpackPlan.stage?_bounds {plan : UnpackPlan} {name : String} {isRoot : Bool}
    {start position : Nat} {stage : Stage}
    (h : plan.stage? name isRoot start = some (stage, position)) :
    start ≤ position ∧ position < plan.stages.length := by
  obtain ⟨hle, hs, -⟩ := stage?_eq_some h
  exact ⟨hle, (List.getElem?_eq_some_iff.mp hs).1⟩

@[simp] theorem NestedPath.toString_root (name : String) :
    (⟨name, []⟩ : NestedPath).toString = name := by
  simp [NestedPath.toString, NestedPath.segments]

namespace Walk

inductive Tree where
  | leaf (leaf : Leaf)
  | container (container : Opened) (entries : List Tree)
  /-- What could not be read. -/
  | broken (cause : Error)

namespace Tree

/-- What comes of an attempt to read something of the container at `path`. -/
def ofAttempt (path : NestedPath) (attempt : Except Error α) (use : α → Tree) : Tree :=
  match attempt with
  | .error e => .broken (e.inContainer path.toString)
  | .ok x => use x

@[simp] theorem ofAttempt_error (path : NestedPath) (e : Error) (use : α → Tree) :
    ofAttempt path (.error e) use = .broken (e.inContainer path.toString) := rfl

@[simp] theorem ofAttempt_ok (path : NestedPath) (x : α) (use : α → Tree) :
    ofAttempt path (.ok x) use = use x := rfl

mutual

/-- The tree of the container that the bytes hold. The stage at position `stage` has opened it. -/
def ofContainer (plan : UnpackPlan) (path : NestedPath) (key : EntryKey) (kind : Kind)
    (header? : Option Zip.Entry) (stage : Nat) (b : Bytes) : Tree :=
  ofAttempt path (Zip.Archive.parse b) fun archive =>
    .container ⟨path, key, kind, header?, archive.comment⟩
      (archive.entries.toList.zipIdx.map fun p => ofEntry plan path key stage archive b p.2 p.1)
termination_by (plan.stages.length - stage, 1)

/-- The tree of one entry of a container: a container again if a later stage opens what has its name. -/
def ofEntry (plan : UnpackPlan) (path : NestedPath) (key : EntryKey) (stage : Nat)
    (archive : Zip.Archive) (b : Bytes) (index : Nat) (entry : Zip.Entry) : Tree :=
  ofAttempt path (archive.readRaw b index) fun raw =>
    let header := { entry with localExtra := raw.localExtra }
    let path := path.child entry.name.text
    let key := key.child index
    match _ : plan.stage? entry.name.text false (stage + 1) with
    | none => .leaf ⟨path, key, .packed header raw.data⟩
    | some (opener, position) =>
      ofAttempt path (header.unpack raw.data)
        (ofContainer plan path key opener.kind (some header) position)
termination_by (plan.stages.length - stage, 0)
decreasing_by
  have := UnpackPlan.stage?_bounds ‹_›
  exact Prod.Lex.left _ _ (by omega)

end

/-- The tree of a file of this name. A file that the plan does not open is one entry. -/
@[irreducible] def ofFile (name : String) (file : Bytes) : Tree :=
  let plan := UnpackPlan.forInput name
  match plan.stage? name true 0 with
  | none => .leaf ⟨⟨name, []⟩, [], .plain file⟩
  | some (opener, position) => ofContainer plan ⟨name, []⟩ [] opener.kind none position file

/-! ## One level of the tree -/

def entryTrees (plan : UnpackPlan) (path : NestedPath) (key : EntryKey) (stage : Nat) (archive : Zip.Archive)
    (b : Bytes) : List Tree :=
  archive.entries.toList.zipIdx.map fun p => ofEntry plan path key stage archive b p.2 p.1

section

variable {plan : UnpackPlan} {path : NestedPath} {key : EntryKey} {stage index : Nat} {archive : Zip.Archive}
  {b : Bytes} {entry : Zip.Entry} {raw : Zip.RawEntry}

theorem ofContainer_of_parse (h : Zip.Archive.parse b = .ok archive) (kind : Kind) (header? : Option Zip.Entry) :
    ofContainer plan path key kind header? stage b =
      .container ⟨path, key, kind, header?, archive.comment⟩ (entryTrees plan path key stage archive b) := by
  rw [ofContainer, h]
  rfl

theorem ofEntry_unopened (hraw : archive.readRaw b index = .ok raw)
    (hs : plan.stage? entry.name.text false (stage + 1) = none) :
    ofEntry plan path key stage archive b index entry =
      .leaf ⟨path.child entry.name.text, key.child index,
        .packed { entry with localExtra := raw.localExtra } raw.data⟩ := by
  rw [ofEntry, hraw, ofAttempt_ok]
  split
  · rfl
  · next h => exact nomatch hs.symm.trans h

theorem ofEntry_opened {opener : Stage} {position : Nat} {data : Bytes} (hraw : archive.readRaw b index = .ok raw)
    (hs : plan.stage? entry.name.text false (stage + 1) = some (opener, position))
    (hunpack : ({ entry with localExtra := raw.localExtra } : Zip.Entry).unpack raw.data = .ok data) :
    ofEntry plan path key stage archive b index entry =
      ofContainer plan (path.child entry.name.text) (key.child index) opener.kind
        (some { entry with localExtra := raw.localExtra }) position data := by
  rw [ofEntry, hraw, ofAttempt_ok]
  split
  · next h => exact nomatch hs.symm.trans h
  · next h =>
    obtain ⟨rfl, rfl⟩ := Prod.mk.inj (Option.some.inj (hs.symm.trans h))
    dsimp only
    simp [hunpack]

/-- Unless something cannot be read, an entry is not opened, or holds an archive. -/
theorem ofEntry_cases (h : ∀ e, ofEntry plan path key stage archive b index entry ≠ .broken e) :
    ∃ raw, archive.readRaw b index = .ok raw ∧
      (plan.stage? entry.name.text false (stage + 1) = none ∨
        ∃ opener position data nested, plan.stage? entry.name.text false (stage + 1) = some (opener, position) ∧
          ({ entry with localExtra := raw.localExtra } : Zip.Entry).unpack raw.data = .ok data ∧
          Zip.Archive.parse data = .ok nested) := by
  cases hraw : archive.readRaw b index with
  | error e =>
    rw [ofEntry, hraw] at h
    exact absurd rfl (h _)
  | ok raw =>
    refine ⟨raw, rfl, ?_⟩
    rw [ofEntry, hraw, ofAttempt_ok] at h
    split at h
    · next hs => exact .inl hs
    · next opener position hs =>
      dsimp only at h
      cases hunpack : ({ entry with localExtra := raw.localExtra } : Zip.Entry).unpack raw.data with
      | error e =>
        rw [hunpack] at h
        exact absurd rfl (h _)
      | ok data =>
        cases hparse : Zip.Archive.parse data with
        | error e =>
          rw [hunpack, ofAttempt_ok, ofContainer, hparse] at h
          exact absurd rfl (h _)
        | ok nested => exact .inr ⟨opener, position, data, nested, hs, rfl, hparse⟩

@[simp] theorem length_entryTrees : (entryTrees plan path key stage archive b).length = archive.entries.size := by
  simp [entryTrees]

theorem get_entryTrees (h : index < archive.entries.size)
    (h' : index < (entryTrees plan path key stage archive b).length) :
    (entryTrees plan path key stage archive b).get ⟨index, h'⟩ =
      ofEntry plan path key stage archive b index archive.entries[index] := by
  simp [entryTrees]

end

/-! ## Pre-order -/

mutual

/-- What a recursive walk over the tree meets: a container before its entries, the entries in their order,
and the same container after them. -/
def preorder : Tree → List (Except Error Event)
  | .leaf l => [.ok (.leaf l)]
  | .container c entries => .ok (.enter c) :: (preorderAll entries ++ [.ok (.leave c)])
  | .broken e => [.error e]

def preorderAll : List Tree → List (Except Error Event)
  | [] => []
  | t :: ts => t.preorder ++ preorderAll ts

end

/-! ## Places -/

mutual

/-- The tree lies at this path and under this key, and `header?` is the header of its entry. Each entry of
a container lies at the path of the container followed by its name, and under the key of the container
followed by its position. -/
def At (path : NestedPath) (key : EntryKey) (header? : Option Zip.Entry) : Tree → Prop
  | .leaf l => l.path = path ∧ l.key = key ∧ l.header? = header?
  | .container c entries =>
    (c.path = path ∧ c.key = key ∧ c.header? = header?) ∧ AllAt path key 0 entries
  | .broken _ => True

/-- The trees are entries of the container at `path`, the first of them the one at position `index`. -/
def AllAt (path : NestedPath) (key : EntryKey) (index : Nat) : List Tree → Prop
  | [] => True
  | t :: ts =>
    (∃ header : Zip.Entry, t.At (path.child header.name.text) (key.child index) (some header)) ∧
      AllAt path key (index + 1) ts

end

theorem allAt_of_forall {path : NestedPath} {key : EntryKey} {ts : List Tree} {index : Nat}
    (h : ∀ i (hi : i < ts.length), ∃ header : Zip.Entry,
      ts[i].At (path.child header.name.text) (key.child (index + i)) (some header)) :
    AllAt path key index ts := by
  induction ts generalizing index with
  | nil => trivial
  | cons t ts ih =>
    refine ⟨h 0 (Nat.zero_lt_succ _), ih fun i hi => ?_⟩
    have hn := h (i + 1) (by simpa using hi)
    rwa [show index + (i + 1) = index + 1 + i by omega] at hn

/-- The recursion on containers puts each tree in its place. -/
theorem ofContainer_at (plan : UnpackPlan) (path : NestedPath) (key : EntryKey) (kind : Kind)
    (header? : Option Zip.Entry) (stage : Nat) (b : Bytes) :
    (ofContainer plan path key kind header? stage b).At path key header? := by
  induction hm : plan.stages.length - stage using Nat.strongRecOn
    generalizing path key kind header? stage b with
  | _ m ih =>
    rw [ofContainer]
    cases Zip.Archive.parse b with
    | error e => trivial
    | ok archive =>
      refine ⟨⟨rfl, rfl, rfl⟩, allAt_of_forall fun i hi => ?_⟩
      simp only [List.length_map, List.length_zipIdx, Array.length_toList] at hi
      simp only [List.getElem_map, List.getElem_zipIdx, Nat.zero_add, Array.getElem_toList]
      rw [ofEntry]
      cases archive.readRaw b i with
      | error e => exact ⟨archive.entries[i], trivial⟩
      | ok raw =>
        refine ⟨{ archive.entries[i] with localExtra := raw.localExtra }, ?_⟩
        simp only [ofAttempt_ok]
        split
        · exact ⟨rfl, rfl, rfl⟩
        · next opener position hs =>
          have hb := UnpackPlan.stage?_bounds hs
          cases ({ archive.entries[i] with localExtra := raw.localExtra } : Zip.Entry).unpack raw.data with
          | error e => trivial
          | ok data => exact ih _ (by omega) _ _ _ _ _ _ rfl

theorem ofFile_at (name : String) (file : Bytes) : (ofFile name file).At ⟨name, []⟩ [] none := by
  simp only [ofFile]
  split
  · exact ⟨rfl, rfl, rfl⟩
  · exact ofContainer_at ..

end Tree

/-- The events up to the first failure, and that failure. -/
def untilFailure : List (Except Error Event) → List Event × Option Error
  | [] => ([], none)
  | .error e :: _ => ([], some e)
  | .ok event :: rest => (event :: (untilFailure rest).1, (untilFailure rest).2)

end Walk
end SourceLabel
