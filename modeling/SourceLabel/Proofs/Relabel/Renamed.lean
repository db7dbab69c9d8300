import SourceLabel.Proofs.Relabel.Assembled
import SourceLabel.Proofs.Walk.Renamed

/-!
# Passes over the same bytes under another name

Both passes look at the name of their input only to see how it ends, and show it in what they tell and in how
they fail. So if the same bytes are read under two names that end alike, the first pass counts the same and
collects the same classes, and the second pass assembles the same output.
-/
namespace SourceLabel

open Result

/-! ## Packing -/

namespace Container.PackPlan

/-- Levels that the same stages pack leave the same levels over. -/
theorem forall₂_leftOver {stages : List Stage} {levels levels' : List String}
    (h : List.Forall₂ (fun s t => ∀ stage, packs stage s = packs stage t) levels levels') :
    List.Forall₂ (fun s t => ∀ stage, packs stage s = packs stage t) (leftOver stages levels)
      (leftOver stages levels') := by
  induction stages generalizing levels levels' with
  | nil => exact h
  | cons stage stages ih =>
    cases h with
    | nil => exact .nil
    | cons hlevel hlevels =>
      unfold leftOver
      rw [hlevel stage]
      split
      · exact ih hlevels
      · exact ih (.cons hlevel hlevels)

theorem packs_eq_of_endsAlike {m n : String} (h : EndsAlike m n) (stage : Stage) : packs stage m = packs stage n := by
  unfold packs
  rw [h.container]

theorem alike_wraps {m n : String} {p q : NestedPath} (h : EndsAlike m n) (hp : p.Renamed m n q) (plan : PackPlan) :
    Alike Eq (plan.wraps p) (plan.wraps q) := by
  obtain ⟨⟨rfl, rfl⟩, hinner⟩ := hp
  have hsegments : List.Forall₂ (fun s t => ∀ stage, packs stage s = packs stage t) p.segments q.segments := by
    unfold NestedPath.segments
    rw [hinner]
    exact .cons (packs_eq_of_endsAlike h) (List.forall₂_same.mpr fun _ _ _ => rfl)
  have hleft : List.Forall₂ (fun s t => ∀ stage, packs stage s = packs stage t)
      (leftOver plan.stages p.segments.reverse) (leftOver plan.stages q.segments.reverse) :=
    forall₂_leftOver (List.forall₂_reverse_iff.mpr hsegments)
  unfold wraps
  rw [hsegments.length_eq]
  generalize leftOver plan.stages p.segments.reverse = left at hleft
  generalize leftOver plan.stages q.segments.reverse = left' at hleft
  cases hleft with
  | nil => exact .ok rfl
  | cons _ hlevels =>
    refine .error ?_
    simp only [Error.unplaced, hlevels.length_eq]

end Container.PackPlan

namespace Relabel

open Walk Tree

variable {m n : String}

/-! ## Both passes -/

/-- What is alike from event to event is alike after all of them. -/
theorem alike_feed {σ τ : Type} {S : σ → τ → Prop} {step : σ → Event → Except Error σ × List Act}
    {step' : τ → Event → Except Error τ × List Act}
    (hstep : ∀ s t e e', S s t → Event.Renamed m n e e' → Alike S (step s e).1 (step' t e').1)
    {events events' : List (Except Error Event)} (h : List.Forall₂ (Alike (Event.Renamed m n)) events events')
    {s : σ} {t : τ} (hs : S s t) : Alike S (feed step s events) (feed step' t events') := by
  induction h generalizing s t with
  | nil => exact .ok hs
  | cons hevent _ ih =>
    cases hevent with
    | error he => exact .error he
    | @ok e e' he =>
      have hnext := hstep s t e e' hs he
      rw [feed, feed]
      generalize (step s e).1 = x at hnext
      generalize (step' t e').1 = y at hnext
      cases hnext with
      | error he => exact .error he
      | ok hs => exact ih hs

section

variable {l l' : Leaf} {c c' : Opened}

theorem isClass_eq_of_renamed (h : EndsAlike m n) (hl : l.Renamed m n l') : l.isClass = l'.isClass := by
  unfold Leaf.isClass Leaf.isDirectory Leaf.header?
  rw [hl.payload]
  rcases hl.path.name with hname | ⟨hm, hn⟩
  · rw [hname]
  · rw [hm, hn, h.classFile]

theorem header?_eq_of_renamed (hl : l.Renamed m n l') : l.header? = l'.header? := by
  unfold Leaf.header?
  rw [hl.payload]

theorem alike_contents (hl : l.Renamed m n l') : Alike Eq l.contents l'.contents := by
  unfold Leaf.contents
  rw [hl.payload]
  split
  · exact .ok rfl
  · exact alike_inContainer _ _ _

/-! ## The first pass -/

/-- The same class with the same label. -/
structure Patched.Same (p q : Patched) : Prop where
  classFile : p.classFile = q.classFile
  change : p.change = q.change

theorem alike_relabel (policy : Policy) (path path' : NestedPath) (c : ClassFile) :
    Alike Patched.Same (relabel policy path c) (relabel policy path' c) := by
  unfold relabel
  split
  · exact .ok ⟨rfl, rfl⟩
  · next old _ =>
    dsimp only
    split
    · exact .ok ⟨rfl, rfl⟩
    · cases c.setLabel (policy.relabel c.name old) with
      | error cause => exact .error rfl
      | ok c => exact .ok ⟨rfl, rfl⟩

theorem alike_patch (policy : Policy) (hl : l.Renamed m n l') :
    Alike Patched.Same (patch policy l) (patch policy l') := by
  unfold patch
  refine (alike_contents hl).bind fun data data' hdata => ?_
  subst hdata
  cases ClassFile.parse data with
  | error cause => exact .error rfl
  | ok c => exact alike_relabel policy _ _ c

/-- The same classes under the same keys. -/
def SamePool (p q : ClassPool) : Prop :=
  ∀ key, (p.get? key).map (fun unit => (unit.classFile, unit.relabelled)) =
    (q.get? key).map (fun unit => (unit.classFile, unit.relabelled))

/-- The same counts, and the same classes. -/
structure Collection.Same (c c' : Collection) : Prop where
  pool : SamePool c.pool c'.pool
  parsed : c.parsed = c'.parsed
  relabelled : c.relabelled = c'.relabelled
  unlabelled : c.unlabelled = c'.unlabelled

theorem Collection.Same.take {c c' : Collection} {p p' : Patched} (hc : c.Same c') (hl : l.Renamed m n l')
    (hp : p.Same p') : (c.take l p).Same (c'.take l' p') := by
  unfold Collection.take
  rw [hc.parsed, hc.relabelled, hc.unlabelled, hp.change, hp.classFile, hl.key]
  refine ⟨fun key => ?_, rfl, rfl, rfl⟩
  simp only [ClassPool.get?_insert]
  split
  · rfl
  · exact hc.pool key

theorem alike_collection_step (h : EndsAlike m n) (policy : Policy) (c c' : Collection) (e e' : Event)
    (hc : c.Same c') (he : e.Renamed m n e') :
    Alike Collection.Same (Collection.step policy c e).1 (Collection.step policy c' e').1 := by
  cases he with
  | enter _ | leave _ => exact .ok hc
  | @leaf l l' hl =>
    have hp := alike_patch policy hl
    unfold Collection.step
    dsimp only
    rw [isClass_eq_of_renamed h hl]
    split
    · generalize patch policy l = x at hp
      generalize patch policy l' = y at hp
      cases hp with
      | error he => exact .error he
      | ok hp => exact .ok (hc.take hl hp)
    · exact .ok hc

/-! ## The second pass -/

namespace Assembly

theorem alike_enter (h : EndsAlike m n) (a : Assembly) (hc : c.Renamed m n c') : Alike Eq (a.enter c) (a.enter c') := by
  unfold enter
  refine (Container.PackPlan.alike_wraps h hc.path a.plan).bind fun _ _ _ => ?_
  rw [hc.path.inner, hc.comment]
  exact alike_refl _

theorem alike_withWriter (a : Assembly) {act act' : Zip.Writer → Except Error Unit × Zip.Writer}
    (h : ∀ w, Alike Eq (accepted (act w)) (accepted (act' w))) : Alike Eq (a.withWriter act) (a.withWriter act') := by
  cases hv : a.inner? with
  | none =>
    rw [withWriter_of_none hv, withWriter_of_none hv]
    exact alike_refl _
  | some v =>
    have hact := h v
    rw [withWriter_eq hv, withWriter_eq hv]
    generalize accepted (act v) = x at hact
    generalize accepted (act' v) = y at hact
    cases hact with
    | error he => exact .error he
    | ok hw => exact .ok (congrArg a.withInner hw)

theorem alike_copy (a : Assembly) (hl : l.Renamed m n l') : Alike Eq (a.copy l) (a.copy l') := by
  unfold copy
  rw [hl.payload]
  split
  · exact alike_refl _
  · refine alike_withWriter a fun w => ?_
    rw [accepted_mapError, accepted_mapError]
    exact alike_inContainer _ _ _

theorem alike_write (a : Assembly) (hl : l.Renamed m n l') (data : Bytes) :
    Alike Eq (a.write l data) (a.write l' data) := by
  unfold write
  rw [header?_eq_of_renamed hl]
  split
  · exact alike_refl _
  · exact alike_inContainer _ _ _

theorem alike_leaf (h : EndsAlike m n) {p q : ClassPool} (hpool : SamePool p q) (a : Assembly)
    (hl : l.Renamed m n l') : Alike Eq (a.leaf p l) (a.leaf q l') := by
  have hunit := hpool l.key
  unfold leaf
  rw [isClass_eq_of_renamed h hl, ← hl.key]
  split
  · generalize p.get? l.key = x at hunit
    generalize q.get? l.key = y at hunit
    cases x with
    | none =>
      obtain rfl : y = none := Option.map_eq_none_iff.mp hunit.symm
      exact .error rfl
    | some unit =>
      obtain ⟨unit', rfl, hsame⟩ := Option.map_eq_some_iff.mp hunit.symm
      obtain ⟨hclass, hrelabelled⟩ := Prod.mk.inj hsame
      dsimp only
      rw [hclass, hrelabelled]
      split
      · exact alike_write a hl _
      · exact alike_copy a hl
  · refine (alike_copy a hl).bind fun a₁ a₂ ha => ?_
    exact .ok (congrArg (fun a : Assembly => { a with resources := a.resources + 1 }) ha)

theorem alike_leave (a : Assembly) (hc : c.Renamed m n c') : Alike Eq (a.leave c).1 (a.leave c').1 := by
  unfold leave
  rw [hc.header?]
  split
  · split
    · exact .error rfl
    · split
      · exact .error rfl
      · exact alike_inContainer _ _ _
  · split
    · exact .error rfl
    · split
      · exact .error rfl
      · exact .ok rfl

theorem alike_step (h : EndsAlike m n) {p q : ClassPool} (hpool : SamePool p q) (a a' : Assembly) (e e' : Event)
    (ha : a = a') (he : e.Renamed m n e') : Alike Eq (step p a e).1 (step q a' e').1 := by
  subst ha
  cases he with
  | enter hc => exact alike_enter h a hc
  | leaf hl => exact alike_leaf h hpool a hl
  | leave hc => exact alike_leave a hc

end Assembly
end
end Relabel
end SourceLabel
