import Mathlib.Data.List.Forall2
import Mathlib.Data.List.Nodup
import SourceLabel.Container.Plan

/-!
# What is opened can be packed

To pack, each stage in turn takes the innermost level that is left if it can. No level is missed by that:
whenever levels can be matched with stages in their order at all, all levels are packed. A walk opens
containers of smaller and smaller kinds, by the ends of their names, and every plan for packing has a stage
for each kind in the opposite order. So whatever is opened can be packed, for any pair of file names.
-/
namespace SourceLabel.Container

/-! ## Packing -/

namespace PackPlan

/-- The levels, the innermost first, can be given to different stages in the order of the stages. -/
def Assignable (stages : List Stage) (levels : List String) : Prop :=
  ∃ chosen, chosen.Sublist stages ∧ List.Forall₂ (fun stage level => packs stage level = true) chosen levels

variable {stage : Stage} {stages : List Stage} {level : String} {levels : List String}

theorem Assignable.nil (stages : List Stage) : Assignable stages [] :=
  ⟨[], List.nil_sublist stages, .nil⟩

theorem Assignable.skip (h : Assignable stages levels) (stage : Stage) : Assignable (stage :: stages) levels := by
  obtain ⟨chosen, hs, hp⟩ := h
  exact ⟨chosen, hs.cons stage, hp⟩

theorem Assignable.pack (h : Assignable stages levels) (hp : packs stage level = true) :
    Assignable (stage :: stages) (level :: levels) := by
  obtain ⟨chosen, hs, hc⟩ := h
  exact ⟨stage :: chosen, hs.cons_cons stage, .cons hp hc⟩

theorem Assignable.tail (h : Assignable stages (level :: levels)) : Assignable stages levels := by
  obtain ⟨chosen, hs, hp⟩ := h
  cases hp with
  | cons _ hp => exact ⟨_, (List.sublist_cons_self _ _).trans hs, hp⟩

theorem Assignable.cases (h : Assignable (stage :: stages) (level :: levels)) :
    Assignable stages (level :: levels) ∨ packs stage level = true ∧ Assignable stages levels := by
  obtain ⟨chosen, hs, hp⟩ := h
  cases hs with
  | cons _ hs => exact .inl ⟨chosen, hs, hp⟩
  | cons_cons _ hs =>
    cases hp with
    | cons hfirst hp => exact .inr ⟨hfirst, _, hs, hp⟩

/-- Nothing is lost by packing a level at the first stage that can pack it: a later stage that had been
meant for it is free then. -/
theorem leftOver_eq_nil_iff : leftOver stages levels = [] ↔ Assignable stages levels := by
  induction stages generalizing levels with
  | nil =>
    cases levels with
    | nil => exact ⟨fun _ => .nil [], fun _ => rfl⟩
    | cons level levels =>
      refine ⟨fun h => absurd h (List.cons_ne_nil _ _), ?_⟩
      rintro ⟨chosen, hs, hp⟩
      obtain rfl := List.sublist_nil.mp hs
      exact nomatch hp
  | cons stage stages ih =>
    cases levels with
    | nil => exact ⟨fun _ => .nil _, fun _ => rfl⟩
    | cons level levels =>
      rw [leftOver]
      by_cases hp : packs stage level = true
      · rw [if_pos hp, ih]
        refine ⟨fun h => h.pack hp, fun h => ?_⟩
        -- a later stage that was meant for this level is free now, and the levels after it still fit
        rcases h.cases with h | ⟨-, h⟩
        · exact h.tail
        · exact h
      · rw [if_neg hp, ih]
        refine ⟨fun h => h.skip stage, fun h => ?_⟩
        rcases h.cases with h | ⟨hp', -⟩
        · exact h
        · exact absurd hp' hp

theorem wraps_eq_ok_iff {plan : PackPlan} {path : NestedPath} :
    plan.wraps path = .ok () ↔ Assignable plan.stages path.segments.reverse := by
  rw [← leftOver_eq_nil_iff, wraps]
  split
  · next h => simp [h]
  · next h => simp [h]

end PackPlan

/-! ## Opening -/

namespace UnpackPlan

/-- What is known of a stage that is found. -/
theorem stage?_eq_some {plan : UnpackPlan} {name : String} {isRoot : Bool} {start position : Nat}
    {stage : Stage} (h : plan.stage? name isRoot start = some (stage, position)) :
    start ≤ position ∧ plan.stages[position]? = some stage ∧ opens name isRoot stage = true := by
  obtain ⟨i, hi, he⟩ := List.getElem_of_mem (List.mem_of_find?_eq_some h)
  simp only [List.getElem_drop, List.getElem_zipIdx, Prod.mk.injEq, Nat.zero_add] at he
  obtain ⟨hs, hp⟩ := he
  have ho : opens name isRoot (stage, position).1 = true :=
    List.find?_some (p := fun s : Stage × Nat => opens name isRoot s.1) h
  refine ⟨by omega, ?_, ho⟩
  rw [← hp, ← hs]
  exact List.getElem?_eq_getElem _

theorem kinds_forInput (name : String) :
    ((forInput name).stages.map Stage.kind).reverse.Sublist Kind.all := by
  unfold forInput
  split <;> decide

theorem nodup_kinds_forInput (name : String) : ((forInput name).stages.map Stage.kind).Nodup :=
  List.nodup_reverse.mp ((kinds_forInput name).nodup (by decide))

theorem length_forInput_le (name : String) : (forInput name).stages.length ≤ 3 := by
  have hlength := (kinds_forInput name).length_le
  rwa [List.length_reverse, List.length_map] at hlength

theorem endsWith_of_own {name : String} {kind : Kind} (h : Stage.own kind ∈ (forInput name).stages) :
    Text.endsWith name kind.extension = true := by
  have hk : Kind.ofName? name = some kind := by
    unfold forInput at h
    split at h <;> simp_all
  exact List.find?_some (p := fun k : Kind => Text.endsWith name k.extension) hk

end UnpackPlan

/-- A walk over the file of this name may enter the container at this path. The stage at this position of
the plan opens it. -/
inductive Opens (file : String) : NestedPath → Nat → Prop
  | file {stage : Stage} {position : Nat} :
      (UnpackPlan.forInput file).stage? file true 0 = some (stage, position) → Opens file ⟨file, []⟩ position
  | entry {path : NestedPath} {name : String} {opener position : Nat} {stage : Stage} :
      Opens file path opener →
      (UnpackPlan.forInput file).stage? name false (opener + 1) = some (stage, position) →
      Opens file (path.child name) position

theorem segments_child (path : NestedPath) (name : String) :
    (path.child name).segments = path.segments ++ [name] := rfl

/-- Each level of a path that is opened has the extension of a kind of its own, in the order of the stages
up to the one that opens the last level. -/
theorem Opens.kinds {file : String} {path : NestedPath} {position : Nat} (h : Opens file path position) :
    ∃ kinds : List Kind,
      kinds.Sublist (((UnpackPlan.forInput file).stages.take (position + 1)).map Stage.kind) ∧
        List.Forall₂ (fun kind level => Text.endsWith level kind.extension = true) kinds path.segments := by
  induction h with
  | @file stage position hs =>
    obtain ⟨-, hg, ho⟩ := UnpackPlan.stage?_eq_some hs
    have hmem : stage ∈ (UnpackPlan.forInput file).stages := List.mem_of_getElem? hg
    refine ⟨[stage.kind], ?_, .cons ?_ .nil⟩
    · rw [List.take_add_one, hg, List.map_append]
      exact List.sublist_append_right _ _
    · cases stage with
      | own kind => exact UnpackPlan.endsWith_of_own hmem
      | nested kind => exact absurd ho (by simp [UnpackPlan.opens])
  | @entry path name opener position stage _ hs ih =>
    obtain ⟨hle, hg, ho⟩ := UnpackPlan.stage?_eq_some hs
    obtain ⟨kinds, hsub, hends⟩ := ih
    refine ⟨kinds ++ [stage.kind], ?_, ?_⟩
    · rw [List.take_add_one, hg, List.map_append]
      exact (hsub.trans ((List.take_sublist_take_left hle).map _)).append_right _
    · rw [segments_child]
      refine List.rel_append hends (.cons ?_ .nil)
      cases stage with
      | own kind => exact absurd ho (by simp [UnpackPlan.opens])
      | nested kind => exact (Bool.and_eq_true_iff.mp ho).2

/-- Whatever a walk opens can be packed, whatever the output is called. -/
theorem Opens.wraps {file : String} {path : NestedPath} {position : Nat} (h : Opens file path position)
    (output : String) : (PackPlan.forOutput output).wraps path = .ok () := by
  obtain ⟨kinds, hsub, hends⟩ := h.kinds
  have hall : kinds.reverse.Sublist Kind.all := by
    have hstages := hsub.trans ((List.take_sublist _ _).map Stage.kind)
    exact hstages.reverse.trans (UnpackPlan.kinds_forInput file)
  have hchosen := hall.map fun kind =>
    if Kind.ofName? output = some kind then Stage.own kind else Stage.nested kind
  refine PackPlan.wraps_eq_ok_iff.mpr ⟨_, hchosen, ?_⟩
  rw [List.forall₂_map_left_iff]
  refine (List.forall₂_reverse_iff.mpr hends).imp fun kind level hlevel => ?_
  unfold PackPlan.packs
  split
  · rfl
  · exact hlevel

end SourceLabel.Container
