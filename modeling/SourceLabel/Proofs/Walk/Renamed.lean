import SourceLabel.Proofs.Result
import SourceLabel.Proofs.Walk.Tree

/-!
# The same bytes under another name

The name of a file stands at the root of the paths of all that is in it. How the file is opened depends on no
more of the name than how it ends. So two names that end alike lead to traversals that are the same but for the
roots of their paths, and to failures that are the same but for the places that they name.
-/
namespace SourceLabel

/-! ## Failures without their places -/

/-- The failure, with every path taken out. -/
def Error.unplaced : Error → Error
  | .malformedContainer _ reason => .malformedContainer "" reason
  | .malformedClass _ cause => .malformedClass "" cause
  | .unsupportedNesting _ (.unpackable _ left total) => .unsupportedNesting "" (.unpackable "" left total)
  | .unsupportedNesting _ (.other text) => .unsupportedNesting "" (.other text)
  | .classNotPooled _ => .classNotPooled ""
  | .invalidFormat (.noHeader _) => .invalidFormat (.noHeader "")
  | .invalidFormat (.closedTwice _) => .invalidFormat (.closedTwice "")
  | e => e

theorem Error.unplaced_inContainer (e : Error) (path path' : String) :
    (e.inContainer path).unplaced = (e.inContainer path').unplaced := by
  cases e with
  | io fault =>
    unfold inContainer
    dsimp only
    split
    · rfl
    · rfl
  | _ => rfl

namespace Result

/-- Both end well, with what `R` relates, or both fail, with the same failure but for its place. -/
inductive Alike (R : α → β → Prop) : Except Error α → Except Error β → Prop
  | ok {x : α} {y : β} : R x y → Alike R (.ok x) (.ok y)
  | error {e e' : Error} : e.unplaced = e'.unplaced → Alike R (.error e) (.error e')

variable {R : α → β → Prop} {x : Except Error α} {y : Except Error β}

theorem Alike.bind {S : γ → δ → Prop} {f : α → Except Error γ} {g : β → Except Error δ} (h : Alike R x y)
    (hfg : ∀ a b, R a b → Alike S (f a) (g b)) : Alike S (x >>= f) (y >>= g) := by
  cases h with
  | ok h => exact hfg _ _ h
  | error h => exact .error h

theorem alike_refl (x : Except Error α) : Alike Eq x x := by
  cases x with
  | error e => exact .error rfl
  | ok a => exact .ok rfl

theorem alike_inContainer (x : Except Error α) (path path' : String) :
    Alike Eq (x.mapError (Error.inContainer path)) (x.mapError (Error.inContainer path')) := by
  cases x with
  | error e => exact .error (e.unplaced_inContainer path path')
  | ok a => exact .ok rfl

end Result

open Result

/-- As far as a walk and a pass can tell, the two names end in the same way. -/
structure EndsAlike (m n : String) : Prop where
  container : ∀ kind : Container.Kind, Text.endsWith m kind.extension = Text.endsWith n kind.extension
  classFile : Text.endsWith m Walk.Leaf.classSuffix = Text.endsWith n Walk.Leaf.classSuffix

namespace Container

theorem Kind.ofName?_eq_of_endsAlike {m n : String} (h : EndsAlike m n) : Kind.ofName? m = Kind.ofName? n := by
  unfold ofName?
  congr 1
  funext kind
  exact h.container kind

theorem UnpackPlan.forInput_eq_of_endsAlike {m n : String} (h : EndsAlike m n) :
    UnpackPlan.forInput m = UnpackPlan.forInput n := by
  unfold forInput
  rw [Kind.ofName?_eq_of_endsAlike h]

/-- Whether a stage opens the file itself does not depend on its name. -/
theorem UnpackPlan.stage?_root (plan : UnpackPlan) (m n : String) (start : Nat) :
    plan.stage? m true start = plan.stage? n true start := by
  have hopens : opens m true = opens n true := by
    funext stage
    cases stage with
    | own kind => rfl
    | nested kind => rfl
  unfold stage?
  rw [hopens]

end Container

/-! ## Paths and events -/

/-- The same place, in two files of these names. -/
structure NestedPath.Renamed (m n : String) (p q : NestedPath) : Prop where
  root : p.root = m ∧ q.root = n
  inner : p.inner = q.inner

namespace NestedPath.Renamed

variable {m n : String} {p q : NestedPath}

theorem child (h : Renamed m n p q) (entry : String) : Renamed m n (p.child entry) (q.child entry) :=
  ⟨h.root, congrArg (· ++ [entry]) h.inner⟩

theorem name (h : Renamed m n p q) : p.name = q.name ∨ p.name = m ∧ q.name = n := by
  unfold NestedPath.name
  rw [h.inner]
  cases q.inner.getLast? with
  | none => exact .inr h.root
  | some entry => exact .inl rfl

end NestedPath.Renamed

namespace Walk

structure Leaf.Renamed (m n : String) (l l' : Leaf) : Prop where
  path : l.path.Renamed m n l'.path
  key : l.key = l'.key
  payload : l.payload = l'.payload

structure Opened.Renamed (m n : String) (c c' : Opened) : Prop where
  path : c.path.Renamed m n c'.path
  header? : c.header? = c'.header?
  comment : c.comment = c'.comment

inductive Event.Renamed (m n : String) : Event → Event → Prop
  | enter {c c' : Opened} : c.Renamed m n c' → Renamed m n (.enter c) (.enter c')
  | leaf {l l' : Leaf} : l.Renamed m n l' → Renamed m n (.leaf l) (.leaf l')
  | leave {c c' : Opened} : c.Renamed m n c' → Renamed m n (.leave c) (.leave c')

/-! ## Traversals -/

namespace Tree

/-- The traversals of two trees are the same but for the roots of their paths. -/
abbrev Renamed (m n : String) (t t' : Tree) : Prop :=
  List.Forall₂ (Alike (Event.Renamed m n)) t.preorder t'.preorder

variable {m n : String} {path path' : NestedPath}

theorem renamed_ofAttempt {x : Except Error α} {use use' : α → Tree} (huse : ∀ a, Renamed m n (use a) (use' a)) :
    Renamed m n (ofAttempt path x use) (ofAttempt path' x use') := by
  cases x with
  | error e => exact .cons (.error (e.unplaced_inContainer _ _)) .nil
  | ok a => exact huse a

theorem renamed_all {f g : ι → Tree} {is : List ι} (h : ∀ i ∈ is, Renamed m n (f i) (g i)) :
    List.Forall₂ (Alike (Event.Renamed m n)) (preorderAll (is.map f)) (preorderAll (is.map g)) := by
  induction is with
  | nil => exact .nil
  | cons i is ih =>
    obtain ⟨hi, his⟩ := List.forall_mem_cons.mp h
    exact List.rel_append hi (ih his)

theorem renamed_container {c c' : Opened} {ts ts' : List Tree} (hc : c.Renamed m n c')
    (hts : List.Forall₂ (Alike (Event.Renamed m n)) (preorderAll ts) (preorderAll ts')) :
    Renamed m n (.container c ts) (.container c' ts') :=
  .cons (.ok (.enter hc)) (List.rel_append hts (.cons (.ok (.leave hc)) .nil))

/-- The recursion on containers carries the two names along. -/
theorem renamed_ofContainer (plan : Container.UnpackPlan) (hpath : path.Renamed m n path') (key : EntryKey)
    (kind : Container.Kind) (header? : Option Zip.Entry) (stage : Nat) (b : Bytes) :
    Renamed m n (ofContainer plan path key kind header? stage b) (ofContainer plan path' key kind header? stage b) := by
  induction hm : plan.stages.length - stage using Nat.strongRecOn
    generalizing path path' key kind header? stage b with
  | _ _ ih =>
    rw [ofContainer, ofContainer]
    refine renamed_ofAttempt fun archive => renamed_container ⟨hpath, rfl, rfl⟩ (renamed_all fun entry _ => ?_)
    rw [ofEntry, ofEntry]
    refine renamed_ofAttempt fun raw => ?_
    have hchild := hpath.child entry.1.name.text
    dsimp only
    split
    · exact .cons (.ok (.leaf ⟨hchild, rfl, rfl⟩)) .nil
    · next opener position hs =>
      have hb := Container.UnpackPlan.stage?_bounds hs
      exact renamed_ofAttempt fun data => ih _ (by omega) hchild _ _ _ _ _ rfl

theorem renamed_ofFile (h : EndsAlike m n) (file : Bytes) : Renamed m n (ofFile m file) (ofFile n file) := by
  have hpath : NestedPath.Renamed m n ⟨m, []⟩ ⟨n, []⟩ := ⟨⟨rfl, rfl⟩, rfl⟩
  simp only [ofFile]
  rw [Container.UnpackPlan.forInput_eq_of_endsAlike h, Container.UnpackPlan.stage?_root _ m n]
  split
  · exact .cons (.ok (.leaf ⟨hpath, rfl, rfl⟩)) .nil
  · exact renamed_ofContainer _ hpath _ _ _ _ _

end Tree
end Walk
end SourceLabel
