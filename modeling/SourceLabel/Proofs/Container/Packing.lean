import Mathlib.Data.List.NodupEquivFin
import SourceLabel.Proofs.Container.Nesting

/-!
# How far a container can be packed

What it takes to pack a container is said without any order of trying: each level, from the innermost on, has a
stage of its own that can pack it, and these stages come in the order of the plan. The stages that are tried one
after another find such an assignment if there is one. If there is none, they come as far as any assignment does,
so the level at which packing ends is the first that no assignment reaches.
-/
namespace SourceLabel.Container.PackPlan

variable {stage : Stage} {stages : List Stage} {level : String} {levels packed outer : List String}
  {path : NestedPath} {plan : PackPlan}

/-- A stage for each level, the innermost first: no stage twice, all in their order, and each either of the file
itself or with the extension that ends the level. -/
def Assigned (stages : List Stage) (levels : List String) : Prop :=
  ∃ position : Fin levels.length → Fin stages.length, StrictMono position ∧ ∀ i,
    stages[position i].isOwn = true ∨ Text.endsWith levels[i] stages[position i].kind.extension = true

theorem packs_iff : packs stage level = true ↔
    stage.isOwn = true ∨ Text.endsWith level stage.kind.extension = true := by
  rw [packs, Bool.or_eq_true]

theorem assigned_iff_assignable : Assigned stages levels ↔ Assignable stages levels := by
  constructor
  · intro ⟨position, hmono, hfits⟩
    have hlength : (List.ofFn fun i => stages[position i]).length = levels.length := List.length_ofFn
    refine ⟨List.ofFn fun i => stages[position i], ?_, ?_⟩
    · apply List.sublist_iff_exists_fin_orderEmbedding_get_eq.mpr
      refine ⟨(Fin.castOrderIso hlength).toOrderEmbedding.trans (OrderEmbedding.ofStrictMono position hmono), ?_⟩
      intro i
      exact List.get_ofFn _ _
    · apply List.forall₂_iff_get.mpr
      refine ⟨hlength, fun i _ hi => ?_⟩
      rw [List.get_ofFn]
      exact packs_iff.mpr (hfits ⟨i, hi⟩)
  · intro ⟨chosen, hsub, hpacks⟩
    obtain ⟨embedding, hget⟩ := List.sublist_iff_exists_fin_orderEmbedding_get_eq.mp hsub
    have hlength := hpacks.length_eq
    refine ⟨fun i => embedding (i.cast hlength.symm), ?_, fun i => ?_⟩
    · exact embedding.strictMono.comp (Fin.castOrderIso hlength.symm).strictMono
    · have hi := (List.forall₂_iff_get.mp hpacks).2 i (i.cast hlength.symm).isLt i.isLt
      apply packs_iff.mp
      change packs (stages.get (embedding (i.cast hlength.symm))) levels[i] = true
      rw [← hget]
      exact hi

theorem Assignable.of_isPrefix (h : Assignable stages levels) (hp : packed <+: levels) : Assignable stages packed := by
  obtain ⟨chosen, hsub, hpacks⟩ := h
  obtain ⟨outer, rfl⟩ := hp
  exact ⟨chosen.take packed.length, (List.take_sublist _ _).trans hsub, List.forall₂_take_append _ _ _ hpacks⟩

/-- The longest run of inner levels that can be packed. -/
def LongestRun (stages : List Stage) (levels packed : List String) : Prop :=
  packed <+: levels ∧ Assigned stages packed ∧
    ∀ run, run <+: levels → Assigned stages run → run.length ≤ packed.length

theorem LongestRun.unique {packed' : List String} (h : LongestRun stages levels packed)
    (h' : LongestRun stages levels packed') : packed = packed' := by
  obtain ⟨hp, ha, hlongest⟩ := h
  obtain ⟨hp', ha', hlongest'⟩ := h'
  apply List.IsPrefix.eq_of_length (List.prefix_of_prefix_length_le hp hp' (hlongest' _ hp ha))
  exact Nat.le_antisymm (hlongest' _ hp ha) (hlongest _ hp' ha')

/-- The stages, tried one after another, leave what lies around the longest run. -/
theorem leftOver_eq_cons (h : leftOver stages levels = level :: outer) :
    ∃ packed, levels = packed ++ level :: outer ∧ Assignable stages packed ∧
      ¬ Assignable stages (packed ++ [level]) := by
  induction stages generalizing levels with
  | nil =>
    have hnone : ¬ Assignable [] [level] := by
      rw [← leftOver_eq_nil_iff]
      exact List.cons_ne_nil _ _
    exact ⟨[], h, .nil [], hnone⟩
  | cons stage stages ih =>
    cases levels with
    | nil => exact absurd h.symm (List.cons_ne_nil _ _)
    | cons inner levels =>
      rw [leftOver] at h
      by_cases hp : packs stage inner = true
      · rw [if_pos hp] at h
        obtain ⟨packed, rfl, hpacked, hnot⟩ := ih h
        refine ⟨inner :: packed, rfl, hpacked.pack hp, fun hall => ?_⟩
        rcases hall.cases with hall | ⟨-, hall⟩
        · exact hnot hall.tail
        · exact hnot hall
      · rw [if_neg hp] at h
        obtain ⟨packed, hlevels, hpacked, hnot⟩ := ih h
        refine ⟨packed, hlevels, hpacked.skip stage, fun hall => ?_⟩
        -- the innermost of these levels is the one that the stage cannot pack
        obtain ⟨more, hmore⟩ : ∃ more, packed ++ [level] = inner :: more := by
          cases packed with
          | nil => exact ⟨[], congrArg (· :: []) (List.cons.inj hlevels).1.symm⟩
          | cons first packed => exact ⟨packed ++ [level], congrArg (· :: _) (List.cons.inj hlevels).1.symm⟩
        rw [hmore] at hall hnot
        rcases hall.cases with hall | ⟨hp', -⟩
        · exact hnot hall
        · exact hp hp'

theorem longestRun_of_leftOver (h : leftOver stages levels = level :: outer) :
    ∃ packed, levels = packed ++ level :: outer ∧ LongestRun stages levels packed := by
  obtain ⟨packed, hlevels, hpacked, hnot⟩ := leftOver_eq_cons h
  have hinner : packed <+: levels := hlevels ▸ List.prefix_append _ _
  have hnext : packed ++ [level] <+: levels := by
    rw [hlevels]
    exact ⟨outer, List.append_cons _ _ _ ▸ rfl⟩
  refine ⟨packed, hlevels, hinner, assigned_iff_assignable.mpr hpacked, fun run hrun ha => ?_⟩
  by_contra hlonger
  have hlength : (packed ++ [level]).length ≤ run.length := by
    rw [List.length_append, List.length_singleton]
    omega
  have hwithin := List.prefix_of_prefix_length_le hnext hrun hlength
  exact hnot ((assigned_iff_assignable.mp ha).of_isPrefix hwithin)

/-- The failure to pack `level`, with `outer` around it. -/
def unpacked (path : NestedPath) (level : String) (outer : List String) : Error :=
  .unsupportedNesting path.toString (.unpackable level (outer.length + 1) path.segments.length)

theorem wraps_of_leftOver_nil (h : leftOver plan.stages path.segments.reverse = []) : plan.wraps path = .ok () := by
  rw [wraps, h]

theorem wraps_of_leftOver_cons (h : leftOver plan.stages path.segments.reverse = level :: outer) :
    plan.wraps path = .error (unpacked path level outer) := by
  rw [wraps, h]
  rfl

/-- A failure names the level around the longest run that can be packed. -/
theorem wraps_eq_error_iff {fault : Error} : plan.wraps path = .error fault ↔
    ∃ packed level outer, path.segments.reverse = packed ++ level :: outer ∧
      LongestRun plan.stages path.segments.reverse packed ∧ fault = unpacked path level outer := by
  cases hleft : leftOver plan.stages path.segments.reverse with
  | nil =>
    rw [wraps_of_leftOver_nil hleft]
    refine iff_of_false nofun ?_
    rintro ⟨packed, level, outer, hlevels, ⟨-, -, hlongest⟩, -⟩
    -- all levels are a longer run than the longest one
    have hall := hlongest _ List.prefix_rfl (assigned_iff_assignable.mpr (leftOver_eq_nil_iff.mp hleft))
    rw [hlevels, List.length_append, List.length_cons] at hall
    omega
  | cons level outer =>
    rw [wraps_of_leftOver_cons hleft]
    obtain ⟨packed, hlevels, hlongest⟩ := longestRun_of_leftOver hleft
    constructor
    · intro h
      exact ⟨packed, level, outer, hlevels, hlongest, (Except.error.inj h).symm⟩
    · rintro ⟨packed', level', outer', hlevels', hlongest', rfl⟩
      obtain rfl := hlongest.unique hlongest'
      obtain ⟨rfl, rfl⟩ := List.cons.inj (List.append_cancel_left (hlevels.symm.trans hlevels'))
      rfl

theorem segments_of_parent? {parent : NestedPath} (h : path.parent? = some parent) :
    ∃ name, path.segments.reverse = name :: parent.segments.reverse := by
  rw [NestedPath.parent?] at h
  split at h
  · exact nomatch h
  · next hinner =>
    obtain rfl := Option.some.inj h
    have hne : path.inner ≠ [] := fun hnil => hinner (hnil ▸ rfl)
    refine ⟨path.inner.getLast hne, ?_⟩
    have hsplit := List.dropLast_concat_getLast hne
    calc path.segments.reverse = (path.root :: (path.inner.dropLast ++ [path.inner.getLast hne])).reverse := by
          rw [hsplit, NestedPath.segments]
      _ = path.inner.getLast hne :: (path.root :: path.inner.dropLast).reverse := by
          rw [List.reverse_cons, List.reverse_concat, List.reverse_cons, List.cons_append]

/-- A container can be packed up exactly if stages can be assigned to its levels. Then so can the container
around it. If a container cannot be packed up, the level that is named lies around the longest run of inner
levels that can be packed. -/
theorem wraps_iff_assigned (output : String) (path : NestedPath) :
    ((forOutput output).wraps path = .ok () ↔ Assigned (forOutput output).stages path.segments.reverse) ∧
    (∀ parent, path.parent? = some parent → (forOutput output).wraps path = .ok () →
      (forOutput output).wraps parent = .ok ()) ∧
    ∀ fault, (forOutput output).wraps path = .error fault ↔
      ∃ packed level outer, path.segments.reverse = packed ++ level :: outer ∧
        LongestRun (forOutput output).stages path.segments.reverse packed ∧ fault = unpacked path level outer := by
  refine ⟨wraps_eq_ok_iff.trans assigned_iff_assignable.symm, fun parent hparent h => ?_, fun _ => wraps_eq_error_iff⟩
  obtain ⟨name, hsegments⟩ := segments_of_parent? hparent
  rw [wraps_eq_ok_iff, hsegments] at h
  exact wraps_eq_ok_iff.mpr h.tail

/-- A jar in a library in an archive can be packed up, and so can the library. -/
theorem wraps_iff_assigned_libraryJar :
    NestedPath.parent? ⟨"in.zip", ["libs/a.aar", "classes.jar"]⟩ = some ⟨"in.zip", ["libs/a.aar"]⟩ ∧
      (forOutput "out.zip").wraps ⟨"in.zip", ["libs/a.aar", "classes.jar"]⟩ = .ok () ∧
      Assigned (forOutput "out.zip").stages ["classes.jar", "libs/a.aar", "in.zip"] ∧
      (forOutput "out.zip").wraps ⟨"in.zip", ["libs/a.aar"]⟩ = .ok () := by
  have hparent : NestedPath.parent? ⟨"in.zip", ["libs/a.aar", "classes.jar"]⟩ = some ⟨"in.zip", ["libs/a.aar"]⟩ := rfl
  have hwraps : (forOutput "out.zip").wraps ⟨"in.zip", ["libs/a.aar", "classes.jar"]⟩ = .ok () := by decide +kernel
  obtain ⟨hassigned, hinner, -⟩ := wraps_iff_assigned "out.zip" ⟨"in.zip", ["libs/a.aar", "classes.jar"]⟩
  exact ⟨hparent, hwraps, hassigned.mp hwraps, hinner _ hparent hwraps⟩

-- The innermost archive is packed last, and no stage is left for the one around it.
example : (forOutput "out.bin").wraps ⟨"in.zip", ["inner.zip", "deeper.zip"]⟩ =
    .error (.unsupportedNesting "in.zip!/inner.zip!/deeper.zip" (.unpackable "inner.zip" 2 3)) := by
  decide +kernel

end SourceLabel.Container.PackPlan
