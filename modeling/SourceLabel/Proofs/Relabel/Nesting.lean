import SourceLabel.Proofs.Relabel.Rebuild

/-!
# Whatever is read can be written

The second pass meets containers that the plan for the input has opened, and those can be packed whatever
the output is called. So no run ends because containers cannot be packed up again.
-/
namespace SourceLabel

open Result

/-- The failure does not say that containers cannot be packed up again. -/
def Error.NotNesting (e : Error) : Prop :=
  ∀ path fault, e ≠ .unsupportedNesting path fault

theorem Error.Placeless.notNesting {e : Error} (h : e.Placeless) : e.NotNesting := by
  rintro path fault rfl
  exact nomatch h path

theorem Error.MalformedAt.notNesting {e : Error} {path : String} (h : e.MalformedAt path) : e.NotNesting := by
  obtain ⟨reason, rfl⟩ := h
  exact nofun

namespace Relabel

open Session Walk

theorem Ordinary.notNesting {e : Error} (h : Ordinary e) : e.NotNesting := by
  cases h with
  | io fault => exact nofun
  | container path reason => exact nofun
  | classFile path cause => exact nofun
  | cancelled => exact nofun

/-! ## Putting the output together -/

namespace Assembly

variable {a a' : Assembly} {c : Opened} {l : Leaf}

theorem plan_of_withWriter {act : Zip.Writer → Except Error Unit × Zip.Writer}
    (h : a.withWriter act = .ok a') : a'.plan = a.plan := by
  obtain ⟨v, w, -, -, rfl⟩ := withWriter_eq_ok.mp h
  unfold withInner
  split
  · rfl
  · rfl

theorem plan_of_writeBare {data : Bytes} (h : a.writeBare data = .ok a') : a'.plan = a.plan := by
  unfold writeBare at h
  split at h
  · obtain rfl := Except.ok.inj h
    rfl
  · exact nomatch h

theorem plan_of_enter (h : a.enter c = .ok a') : a'.plan = a.plan := by
  unfold enter at h
  obtain ⟨_, _, h⟩ := bind_eq_ok.mp h
  split at h
  · split at h
    · obtain rfl := Except.ok.inj h
      rfl
    · exact nomatch h
  · obtain rfl := Except.ok.inj h
    rfl

theorem plan_of_copy (h : a.copy l = .ok a') : a'.plan = a.plan := by
  unfold copy at h
  split at h
  · exact plan_of_writeBare h
  · exact plan_of_withWriter h

theorem plan_of_write {data : Bytes} (h : a.write l data = .ok a') : a'.plan = a.plan := by
  unfold write at h
  split at h
  · exact plan_of_writeBare h
  · exact plan_of_withWriter (mapError_eq_ok.mp h)

theorem plan_of_leaf {pool : ClassPool} (h : a.leaf pool l = .ok a') : a'.plan = a.plan := by
  unfold leaf at h
  split at h
  · split at h
    · exact nomatch h
    · split at h
      · exact plan_of_write h
      · exact plan_of_copy h
  · obtain ⟨a₁, hc, h⟩ := bind_eq_ok.mp h
    obtain rfl := Except.ok.inj h
    have hp := plan_of_copy hc
    exact hp

theorem plan_of_leave (h : (a.leave c).1 = .ok a') : a'.plan = a.plan := by
  unfold leave at h
  cases hn : a.nested with
  | cons w outer =>
    simp only [hn] at h
    cases hf : w.finish with
    | error e => simp [hf] at h
    | ok done =>
      cases hh : c.header? with
      | none => simp [hf, hh] at h
      | some header =>
        simp only [hf, hh] at h
        obtain ⟨a₁, hw, rfl⟩ := map_eq_ok.mp (mapError_eq_ok.mp h)
        have hp := plan_of_withWriter hw
        exact hp
  | nil =>
    simp only [hn] at h
    cases ht : a.target with
    | bare b => simp [ht] at h
    | archive w =>
      simp only [ht] at h
      cases hf : w.finish with
      | error e => simp [hf] at h
      | ok done =>
        simp only [hf] at h
        obtain rfl := Except.ok.inj h
        rfl

theorem plan_of_step {pool : ClassPool} {event : Event} (h : (step pool a event).1 = .ok a') :
    a'.plan = a.plan := by
  cases event with
  | enter c => exact plan_of_enter h
  | leaf l => exact plan_of_leaf h
  | leave c => exact plan_of_leave h

theorem failsWith_withWriter {P : Error → Prop} (a : Assembly) {act : Zip.Writer → Except Error Unit × Zip.Writer}
    (h : ∀ w, FailsWith P (act w).1) (hP : P (.invalidFormat .noOpenArchive)) : FailsWith P (a.withWriter act) := by
  have hact : ∀ w e w', act w = (.error e, w') → P e := by
    intro w e w' he
    have hw := h w
    rw [he] at hw
    exact hw e rfl
  unfold withWriter
  split
  · split
    · next he => exact .error (hact _ _ _ he)
    · exact .ok _
  · split
    · next he => exact .error (hact _ _ _ he)
    · exact .ok _
  · exact .error hP

theorem failsWith_writeBare (a : Assembly) (data : Bytes) : FailsWith Error.NotNesting (a.writeBare data) := by
  unfold writeBare
  split
  · exact .ok _
  · exact .error (Error.placeless_invalidFormat _).notNesting

theorem failsWith_copy (a : Assembly) (l : Leaf) : FailsWith Error.NotNesting (a.copy l) := by
  unfold copy
  split
  · exact failsWith_writeBare a _
  · next header raw _ =>
    refine a.failsWith_withWriter (fun w => ?_) (Error.placeless_invalidFormat _).notNesting
    exact fun e he => ((Zip.Writer.failsWith_copy w header raw).placed _ e he).notNesting

theorem failsWith_write (a : Assembly) (l : Leaf) (data : Bytes) :
    FailsWith Error.NotNesting (a.write l data) := by
  unfold write
  split
  · exact failsWith_writeBare a _
  · next header _ =>
    have hw := a.failsWith_withWriter (fun w => Zip.Writer.failsWith_add w header data)
      (Error.placeless_invalidFormat _)
    exact fun e he => (hw.placed _ e he).notNesting

theorem failsWith_leaf (a : Assembly) (pool : ClassPool) (l : Leaf) :
    FailsWith Error.NotNesting (a.leaf pool l) := by
  unfold leaf
  split
  · split
    · exact .error nofun
    · split
      · exact failsWith_write a l _
      · exact failsWith_copy a l
  · exact (failsWith_copy a l).bind fun _ _ => .ok _

theorem failsWith_leave (a : Assembly) (c : Opened) : FailsWith Error.NotNesting (a.leave c).1 := by
  unfold leave
  split
  · next outer _ =>
    split
    · next he => exact .error (Zip.Writer.failsWith_finish _ _ he).notNesting
    · next done _ =>
      dsimp only
      split
      · exact .error (Error.placeless_invalidFormat _).notNesting
      · next header _ =>
        have hw := ({ a with nested := outer } : Assembly).failsWith_withWriter
          (fun w => Zip.Writer.failsWith_add w header done.bytes) (Error.placeless_invalidFormat _)
        exact fun e he => ((hw.map _).placed _ e he).notNesting
  · split
    · exact .error (Error.placeless_invalidFormat _).notNesting
    · split
      · next he => exact .error (Zip.Writer.failsWith_finish _ _ he).notNesting
      · exact .ok _

theorem failsWith_enter (h : a.plan.wraps c.path = .ok ()) : FailsWith Error.NotNesting (a.enter c) := by
  unfold enter
  rw [h]
  change FailsWith _ (if c.path.inner.isEmpty = true then _ else _)
  split
  · split
    · exact .ok _
    · exact .error (Error.placeless_invalidFormat _).notNesting
  · exact .ok _

theorem failsWith_finish (a : Assembly) : FailsWith Error.NotNesting a.finish := by
  unfold finish
  split
  · exact .ok _
  · exact .error (Error.placeless_invalidFormat _).notNesting

end Assembly

theorem takes_assembly (name output : String) (pool : ClassPool) :
    Takes name (fun a => a.plan = Container.PackPlan.forOutput output) Error.NotNesting
      (Assembly.step pool) := by
  constructor
  · intro a event hplan hevent
    cases event with
    | enter c =>
      obtain ⟨position, hopens⟩ := hevent
      exact Assembly.failsWith_enter (hplan ▸ hopens.wraps output)
    | leaf l => exact a.failsWith_leaf pool l
    | leave c => exact a.failsWith_leave c
  · intro a event a' hplan _ hs
    exact (Assembly.plan_of_step hs).trans hplan

/-! ## Runs -/

section

variable {R : World → World → Prop}

theorem obeys_writeOutput (hR : World.Lasting R) (hfiles : ∀ w files, R w { w with files }) (o : Options)
    (input output : String) (pool : ClassPool) : Obeys R Error.NotNesting (o.writeOutput input output pool) := by
  have hP : ∀ e, Ordinary e → e.NotNesting := fun e he => he.notNesting
  have hio : ∀ fault, Error.NotNesting (.io fault) := fun fault => hP _ (.io fault)
  have hdevice : ∀ (a : Access) fault, (a.failure fault).NotNesting := fun a fault => hP _ (.of_device a fault)
  unfold Options.writeOutput
  refine obeys_bind hR (obeys_startPass hR o 2) fun _ _ _ _ => ?_
  refine obeys_withTemporary hR hfiles hdevice fun temporary => ?_
  refine obeys_bind hR (obeys_walkOver hR hP (takes_assembly _ _ pool) rfl) fun a _ _ _ => ?_
  refine obeys_bind hR (obeys_checkpoint hR (hP _ .cancelled) _) fun _ _ _ _ => ?_
  refine obeys_bind hR (obeys_ofExcept hR a.failsWith_finish) fun bytes _ _ _ => ?_
  refine obeys_bind hR (obeys_performAll hR hdevice _) fun _ _ _ _ => ?_
  refine obeys_bind hR (obeys_get hR) fun _ _ _ _ => ?_
  refine obeys_bind hR (obeys_ofFault hR hio) fun files _ _ _ => ?_
  exact obeys_bind hR (obeys_modify fun w => hfiles w files) fun _ _ _ _ => obeys_pure hR _

theorem obeys_run (hR : World.Lasting R) (hfiles : ∀ w files, R w { w with files }) (o : Options)
    (input output : String) : Obeys R Error.NotNesting (o.run input output) := by
  unfold Options.run
  refine obeys_bind hR (obeys_setPhase hR _) fun _ _ _ _ => ?_
  refine obeys_bind hR (obeys_tell hR _) fun _ _ _ _ => ?_
  refine obeys_bind hR (obeys_collect hR (fun e he => he.notNesting) o input) fun c _ _ _ => ?_
  refine obeys_bind hR (obeys_tell hR _) fun _ _ _ _ => ?_
  refine obeys_bind hR (obeys_setPhase hR _) fun _ _ _ _ => ?_
  refine obeys_bind hR (obeys_tell hR _) fun _ _ _ _ => ?_
  refine obeys_bind hR (obeys_writeOutput hR hfiles o input output c.pool) fun _ _ _ _ => ?_
  refine obeys_bind hR (obeys_setPhase hR _) fun _ _ _ _ => ?_
  exact obeys_bind hR (obeys_tell hR _) fun _ _ _ _ => obeys_pure hR _

end

/-- What is opened can be packed, whatever the input and the output are called: that goes for every path
that the plan for the input opens, and a walk enters no other. So no run ends because containers cannot be
packed up again. -/
theorem opened_wraps :
    (∀ name output path position, Container.Opens name path position →
      (Container.PackPlan.forOutput output).wraps path = .ok ()) ∧
    (∀ name file walk told c, Walk.start name file = .ok (walk, told) → .enter c ∈ (walk.events file).1 →
      ∃ position, Container.Opens name c.path position) ∧
    ∀ (o : Options) input output w path fault,
      (outcome (o.run input output) w).1 ≠ .error (.unsupportedNesting path fault) := by
  refine ⟨?_, ?_, ?_⟩
  · intro name output path position h
    exact h.wraps output
  · intro name file walk told c hstart hc
    exact (within_of_start hstart).possible_of_mem_events _ hc
  · intro o input output w path fault h
    have hrun := (obeys_run World.lasting_true (fun _ _ => trivial) o input output).fails w
    exact hrun _ h path fault rfl

/-- An archive in an archive in an archive, with a text in the innermost. -/
def deepFile : Bytes :=
  Zip.packAll [(⟨"x.aar", by decide, by decide⟩, Zip.packAll [(⟨"y.jar", by decide, by decide⟩,
    Zip.packAll [(⟨"z.txt", by decide, by decide⟩, [104, 105])])])]

/-- Does a walk over a file of this name enter the containers of these names, one in the other? -/
def enters (name : String) (file : Bytes) (inner : List String) : Bool :=
  match Walk.start name file with
  | .error _ => false
  | .ok (walk, _) =>
    (walk.events file).1.any fun
      | .enter c => c.path = ⟨name, inner⟩
      | _ => false

theorem exists_of_enters {name : String} {file : Bytes} {inner : List String}
    (h : enters name file inner = true) :
    ∃ walk told c, Walk.start name file = .ok (walk, told) ∧ .enter c ∈ (walk.events file).1 ∧
      c.path = ⟨name, inner⟩ := by
  unfold enters at h
  split at h
  · exact nomatch h
  · next walk told hs =>
    obtain ⟨event, hmem, he⟩ := List.any_eq_true.mp h
    split at he
    · next c => exact ⟨walk, told, c, hs, hmem, by simpa using he⟩
    · exact nomatch he

set_option maxRecDepth 100000 in
theorem enters_deepFile : enters "in.zip" deepFile ["x.aar", "y.jar"] = true := by
  decide +kernel

theorem opened_wraps_deepFile :
    ∃ walk told c, Walk.start "in.zip" deepFile = .ok (walk, told) ∧ .enter c ∈ (walk.events deepFile).1 ∧
      c.path = ⟨"in.zip", ["x.aar", "y.jar"]⟩ ∧ (∃ position, Container.Opens "in.zip" c.path position) ∧
      (Container.PackPlan.forOutput "out.jar").wraps c.path = .ok () := by
  obtain ⟨walk, told, c, hs, hmem, hpath⟩ := exists_of_enters enters_deepFile
  obtain ⟨position, hopens⟩ := opened_wraps.2.1 _ _ _ _ c hs hmem
  exact ⟨walk, told, c, hs, hmem, hpath, ⟨position, hopens⟩, opened_wraps.1 _ "out.jar" _ _ hopens⟩

end Relabel
end SourceLabel
