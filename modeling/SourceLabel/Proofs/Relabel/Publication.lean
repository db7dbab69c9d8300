import SourceLabel.Proofs.Relabel.Nesting

/-!
# All or nothing

A run changes one file, at the very end, or no file at all: whatever fails, in either pass and at any depth,
fails before the output is published, and the temporary files are removed on the way out. This goes for each use
of the device as well. Once a stop has been asked for, the check right before the output is published sees it.
-/
namespace SourceLabel.Relabel

open Session

/-! ## Requests to stop -/

/-- Did others ask for a stop at one of the moments, which came after those `before`? The last moment comes
first. -/
def Outside.asked (outside : Outside) (before : List Moment) : List Moment → Bool
  | [] => false
  | m :: ms => (outside (ms ++ before) m).cancels || outside.asked before ms

theorem Outside.asked_append (outside : Outside) (before ms ms' : List Moment) :
    outside.asked before (ms' ++ ms) = (outside.asked (ms ++ before) ms' || outside.asked before ms) := by
  induction ms' with
  | nil => rfl
  | cons m ms' ih =>
    rw [List.cons_append, asked, asked, ih, List.append_assoc, Bool.or_assoc]

/-- The same others are around, and what was asked of the run is known to it. -/
structure World.Traced (w w' : World) (ms : List Moment) : Prop where
  outside : w'.outside = w.outside
  moments : w'.moments = ms ++ w.moments
  isCancelled : w'.progress.isCancelled = (w.progress.isCancelled || w.outside.asked w.moments ms)

namespace World

theorem Traced.refl (w : World) : w.Traced w [] :=
  ⟨rfl, rfl, (Bool.or_false _).symm⟩

theorem Traced.trans {w w' w'' : World} {ms ms' : List Moment} (h : w.Traced w' ms) (h' : w'.Traced w'' ms') :
    w.Traced w'' (ms' ++ ms) := by
  refine ⟨h'.outside.trans h.outside, ?_, ?_⟩
  · rw [h'.moments, h.moments, List.append_assoc]
  · rw [h'.isCancelled, h.isCancelled, h.outside, h.moments, Outside.asked_append, Bool.or_assoc, Bool.or_comm
      (w.outside.asked w.moments ms)]

theorem traced_meet (w : World) (m : Moment) : w.Traced (w.meet m) [m] := by
  refine ⟨rfl, rfl, ?_⟩
  change (if (w.outside w.moments m).cancels then w.progress.cancel else w.progress).isCancelled =
    (w.progress.isCancelled || ((w.outside w.moments m).cancels || false))
  rw [Bool.or_false]
  cases (w.outside w.moments m).cancels with
  | true => exact (Bool.or_true _).symm
  | false => exact (Bool.or_false _).symm

theorem lasting_traced : Lasting fun w w' => ∃ ms, w.Traced w' ms where
  refl w := ⟨[], .refl w⟩
  trans h h' := by
    obtain ⟨ms, h⟩ := h
    obtain ⟨ms', h'⟩ := h'
    exact ⟨ms' ++ ms, h.trans h'⟩
  meet w m := ⟨[m], traced_meet w m⟩
  phase w _ := ⟨[], rfl, rfl, (Bool.or_false _).symm⟩
  progress w _ h := ⟨[], rfl, rfl, h.trans (Bool.or_false _).symm⟩

/-- What happens to the world while files are left alone. -/
structure Later (w w' : World) : Prop where
  traced : ∃ ms, w.Traced w' ms
  kept : w.Unshared → w.Kept w'

theorem lasting_later : Lasting Later where
  refl w := ⟨lasting_traced.refl w, lasting_kept.refl w⟩
  trans h h' := ⟨lasting_traced.trans h.traced h'.traced, lasting_kept.trans h.kept h'.kept⟩
  meet w m := ⟨lasting_traced.meet w m, lasting_kept.meet w m⟩
  phase w phase := ⟨lasting_traced.phase w phase, lasting_kept.phase w phase⟩
  progress w progress h := ⟨lasting_traced.progress w progress h, lasting_kept.progress w progress h⟩

end World

theorem Session.Ends.later {m : Session α} {w w' : World} {x : α} (h : Ends m w x w')
    (hm : Obeys World.Later (fun _ => True) m) : w.Later w' :=
  hm.of_ends h

/-! ## Failures leave the files as they were -/

/-- What `view` shows of the files is as it was, and the same others and the same device are around. -/
structure World.KeptIn (view : Files → Files) (w w' : World) : Prop where
  files : view w'.files = view w.files
  outside : w'.outside = w.outside
  device : w'.device = w.device

theorem World.lasting_keptIn (view : Files → Files) : World.Lasting fun w w' => w.Unshared → w.KeptIn view w' where
  refl _ _ := ⟨rfl, rfl, rfl⟩
  trans h h' hw := by
    have hk := h hw
    have hk' := h' (hw.of_outside hk.outside)
    exact ⟨hk'.files.trans hk.files, hk'.outside.trans hk.outside, hk'.device.trans hk.device⟩
  meet _ m hw := ⟨congrArg view (World.kept_meet hw m).files, rfl, rfl⟩
  phase _ _ _ := ⟨rfl, rfl, rfl⟩
  progress _ _ _ _ := ⟨rfl, rfl, rfl⟩

namespace Session

variable {α β : Type} {D : Device → Prop} {view : Files → Files} {m : Session α}

/-- If the session fails on a device like that, what `view` shows of the files is as it was. -/
def Undone (D : Device → Prop) (view : Files → Files) (m : Session α) : Prop :=
  ∀ w e w', w.Unshared → D w.device → outcome m w = (.error e, w') → view w'.files = view w.files

theorem Undone.of_fails (h : Fails (fun _ => False) m) : Undone D view m := by
  intro w e w' _ _ ho
  have hf := h.fails w
  rw [ho] at hf
  exact (hf e rfl).elim

theorem Undone.through (h : Undone D id m) (view : Files → Files) : Undone D view m :=
  fun w e w' hw hd ho => congrArg view (h w e w' hw hd ho)

theorem Undone.bind {k : α → Session β} (hm : Obeys (fun w w' => w.Unshared → w.KeptIn view w') (fun _ => True) m)
    (hk : ∀ x, Undone D view (k x)) : Undone D view (m >>= k) := by
  intro w e w' hw hd ho
  have hmoves := hm.moves w hw
  rw [outcome_bind] at ho
  rcases hfirst : outcome m w with ⟨e₁ | x, w₁⟩
  · rw [hfirst] at hmoves ho
    obtain ⟨-, rfl⟩ := Prod.mk.inj ho
    exact hmoves.files
  · rw [hfirst] at hmoves ho
    exact (hk x w₁ e w' (hw.of_outside hmoves.outside) (hmoves.device ▸ hd) ho).trans hmoves.files

/-- After the first step nothing fails any more. -/
theorem Undone.bind_ends {k : α → Session β} (hm : Undone D view m)
    (hdevice : Obeys (fun w w' => w'.device = w.device) (fun _ => True) m)
    (hk : ∀ x w, D w.device → ∃ y w', Ends (k x) w y w') : Undone D view (m >>= k) := by
  intro w e w' hw hd ho
  have hlast := hdevice.moves w
  rw [outcome_bind] at ho
  rcases hfirst : outcome m w with ⟨e₁ | x, w₁⟩
  · rw [hfirst] at ho
    obtain ⟨-, rfl⟩ := Prod.mk.inj ho
    exact hm w e₁ w₁ hw hd hfirst
  · rw [hfirst] at ho hlast
    obtain ⟨y, w₂, hends⟩ := hk x w₁ (hlast ▸ hd)
    exact nomatch hends.symm.trans ho

/-- Work that leaves everything but its temporary file as it was is undone when that file is removed. -/
theorem undone_withTemporary {directory suffix : String} {act : Files.Temporary → Session α}
    (h : ∀ temporary : Files.Temporary, Undone D (·.remove temporary.place) (act temporary)) :
    Undone D id (withTemporary directory suffix act) := by
  intro w e w' hw hd ho
  rw [outcome_withTemporary] at ho
  cases hcreate : w.failure? { operation := .create } with
  | some e₁ =>
    rw [hcreate] at ho
    obtain ⟨-, rfl⟩ := Prod.mk.inj ho
    rfl
  | none =>
    rcases hc : w.files.createTemporary directory suffix w.tags with fault | ⟨temporary, files⟩
    · simp only [hcreate, hc] at ho
      obtain ⟨-, rfl⟩ := Prod.mk.inj ho
      rfl
    · simp only [hcreate, hc] at ho
      rcases ha : outcome (act temporary) { w with files } with ⟨e₁ | x, w₁⟩
      · simp only [ha] at ho
        obtain ⟨-, rfl⟩ := Prod.mk.inj ho
        obtain ⟨hn, rfl⟩ := Files.createTemporary_eq_ok hc
        have hundone := h temporary { w with files := w.files.set temporary.place (.file []) } e₁ w₁ hw hd ha
        dsimp only at hundone
        rw [Files.remove_set_self, Files.remove_of_node? hn] at hundone
        exact hundone
      · simp only [ha] at ho
        exact nomatch (Prod.mk.inj ho).1

/-- The temporary file is the only one that changes when something is copied into it. -/
theorem obeys_copyInto (temporary : Files.Temporary) (path : String) :
    Obeys (fun w w' => w.Unshared → w.KeptIn (·.remove temporary.place) w') (fun _ => True)
      (Options.copyInto temporary path) := by
  have hR := World.lasting_keptIn (·.remove temporary.place)
  unfold Options.copyInto
  refine obeys_bind hR (obeys_access hR (fun _ _ => trivial) _) fun _ _ _ _ => ?_
  refine obeys_bind hR (obeys_get hR) fun _ _ _ _ => ?_
  refine obeys_bind hR (obeys_ofFault hR fun _ => trivial) fun place _ _ _ => ?_
  split
  · exact obeys_ofExcept (r := .error _) hR (.error trivial)
  · exact obeys_ofExcept (r := .error _) hR (.error trivial)
  · exact obeys_modify fun w _ => ⟨Files.remove_set_self w.files _ _, rfl, rfl⟩

end Session

variable {D : Device → Prop}

theorem undone_writeOutput (o : Options) (input output : String) (pool : ClassPool) :
    Undone D id (o.writeOutput input output pool) := by
  have hpublished : ∀ (files : Files) (result : Assembly × Nat), Fails (fun _ => False)
      (modify ({ · with files }) >>= fun _ => pure result : Session (Assembly × Nat)) :=
    fun files result => obeys_bind World.lasting_true (obeys_modify fun _ => trivial) fun _ _ _ _ =>
      obeys_pure World.lasting_true result
  unfold Options.writeOutput
  refine .bind (obeys_startPass (World.lasting_keptIn id) o 2) fun _ => ?_
  refine undone_withTemporary fun temporary => ?_
  have hR := World.lasting_keptIn (·.remove temporary.place)
  have hwalk := takes_true (Files.fileName input) (Assembly.step pool)
  refine .bind (obeys_walkOver hR (fun _ _ => trivial) hwalk trivial) fun a => ?_
  refine .bind (obeys_checkpoint hR trivial _) fun _ => ?_
  refine .bind (obeys_ofExcept hR fun _ _ => trivial) fun bytes => ?_
  refine .bind (obeys_performAll hR (fun _ _ => trivial) _) fun _ => ?_
  refine .bind (obeys_get hR) fun _ => ?_
  refine .bind (obeys_ofFault hR fun _ => trivial) fun files => ?_
  exact .of_fails (hpublished files _)

theorem undone_run (o : Options) (input output : String) : Undone D id (o.run input output) := by
  have hR := World.lasting_keptIn id
  unfold Options.run
  refine .bind (obeys_setPhase hR _) fun _ => ?_
  refine .bind (obeys_tell hR _) fun _ => ?_
  refine .bind (obeys_collect hR (fun _ _ => trivial) o input) fun c => ?_
  refine .bind (obeys_tell hR _) fun _ => ?_
  refine .bind (obeys_setPhase hR _) fun _ => ?_
  refine .bind (obeys_tell hR _) fun _ => ?_
  have hdevice := obeys_writeOutput World.lasting_device (fun _ _ => rfl) o input output c.pool
  refine .bind_ends (undone_writeOutput o input output c.pool) ⟨hdevice.moves, fun _ _ _ => trivial⟩ fun _ w _ => ?_
  exact ⟨_, _, ends_bind.mpr ⟨(), _, ends_modify.mpr rfl,
    ends_bind.mpr ⟨(), _, ends_tell.mpr rfl, ends_pure.mpr ⟨rfl, rfl⟩⟩⟩⟩

/-- Temporary files can always be closed. -/
def Device.Closes (d : Device) : Prop :=
  ∀ moments, d moments { operation := .close } = none

theorem undone_runInPlace (o : Options) (path : String) : Undone Device.Closes id (o.runInPlace path) := by
  refine undone_withTemporary fun temporary => ?_
  have hR := World.lasting_keptIn (·.remove temporary.place)
  refine .bind (obeys_copyInto temporary path) fun _ => ?_
  refine .bind (obeys_tell hR _) fun _ => ?_
  have hdevice := obeys_run World.lasting_device (fun _ _ => rfl) o temporary.path path
  refine .bind_ends ((undone_run o temporary.path path).through _) ⟨hdevice.moves, fun _ _ _ => trivial⟩
    fun report w hcloses => ?_
  have hclosed : w.failure? { operation := .close } = none := by
    unfold World.failure?
    rw [hcloses]
    rfl
  exact ⟨report, _, ends_bind.mpr ⟨(), w, ends_access.mpr ⟨hclosed, rfl⟩,
    ends_bind.mpr ⟨(), _, ends_modify.mpr rfl, ends_pure.mpr ⟨rfl, rfl⟩⟩⟩⟩

/-! ## Runs that end well -/

/-- From `w` to `w'`, the last that happened before the end was told is that the run looked whether it should
stop. If it heeds requests, there had been none, neither before nor up to then. -/
def ClosedAfterCheck (o : Options) (output : String) (report : Report) (w w' : World) : Prop :=
  ∃ ms, w'.moments = .told (.wrote output report.bytes report.resources report.containers) :: .checkpoint ::
      (ms ++ w.moments) ∧
    (o.watched = true →
      w.progress.isCancelled = false ∧ w.outside.asked w.moments (.checkpoint :: ms) = false)

theorem ClosedAfterCheck.of_traced {o : Options} {output : String} {report : Report} {w v w' : World}
    {ms : List Moment} (h : w.Traced v ms) (hc : ClosedAfterCheck o output report v w') :
    ClosedAfterCheck o output report w w' := by
  obtain ⟨ms', hmoments, hasked⟩ := hc
  refine ⟨ms' ++ ms, ?_, fun ho => ?_⟩
  · rw [hmoments, h.moments, List.append_assoc]
  · obtain ⟨hbefore, hsince⟩ := hasked ho
    rw [h.isCancelled, Bool.or_eq_false_iff] at hbefore
    rw [h.outside, h.moments] at hsince
    rw [← List.cons_append, Outside.asked_append, hsince, hbefore.2]
    exact ⟨hbefore.1, rfl⟩

variable {o : Options} {input output path : String} {w w' : World} {report : Report}

/-- The second pass looks whether it should stop, and then replaces the file at the output path. -/
theorem ends_writeOutput_replaced {pool : ClassPool} {a : Assembly} {size : Nat} (hw : w.Unshared)
    (h : Ends (o.writeOutput input output pool) w (a, size) w') :
    w.files.Replaced w'.files output ∧ ∃ ms, w.Traced w' (.checkpoint :: ms) ∧
      (o.watched = true → w'.progress.isCancelled = false) := by
  have hR := World.lasting_later
  obtain ⟨w₁, temporary, files, w₂, bytes, files', hs, hc, hwalk, hheeds, -, -, hpublish, rfl⟩ :=
    ends_writeOutput_steps h
  have hl₁ := hs.later (obeys_startPass hR o 2)
  have hl₂ := hwalk.later (obeys_walkOver hR (fun _ _ => trivial) (takes_true _ _) trivial)
  constructor
  · have hw₁ : World.Unshared { w₁ with files } := (hl₁.kept hw).unshared hw
    have hk₂ := hl₂.kept hw₁
    have hk₃ := World.kept_meet (hk₂.unshared hw₁) .checkpoint
    rw [(hl₁.kept hw).files] at hc
    rw [hk₃.files, hk₂.files] at hpublish
    exact Files.replaced_of_publish hc hpublish
  · obtain ⟨ms₁, ht₁⟩ := hl₁.traced
    obtain ⟨ms₂, ht₂⟩ := hl₂.traced
    have ht : w.Traced w₂ (ms₂ ++ ms₁) := ht₁.trans ⟨ht₂.outside, ht₂.moments, ht₂.isCancelled⟩
    have htc := ht.trans (World.traced_meet w₂ .checkpoint)
    refine ⟨ms₂ ++ ms₁, ⟨htc.outside, htc.moments, htc.isCancelled⟩, fun ho => ?_⟩
    rw [ho, Bool.true_and] at hheeds
    exact hheeds

theorem ends_run_replaced (hw : w.Unshared) (h : Ends (o.run input output) w report w') :
    w.files.Replaced w'.files output ∧ ClosedAfterCheck o output report w w' := by
  have hR := World.lasting_later
  obtain ⟨c, w₁, a, size, w₂, hcollect, hwrite, rfl, rfl⟩ := ends_run_steps h
  have hl₁ := hR.trans (hR.reach w _ _) (hcollect.later (obeys_collect hR (fun _ _ => trivial) o input))
  have hl := hR.trans hl₁ (hR.trans (hR.meet w₁ (.told (.collected c.parsed c.relabelled c.unlabelled)))
    (hR.reach _ .writing (.writing output)))
  have hk := hl.kept hw
  obtain ⟨hreplaced, ms, ht, hheeds⟩ := ends_writeOutput_replaced (hk.unshared hw) hwrite
  constructor
  · have hw₂ : w₂.Unshared := (hk.unshared hw).of_outside ht.outside
    rw [(World.lasting_kept.reach w₂ _ _ hw₂).files, ← hk.files]
    exact hreplaced
  · obtain ⟨ms₁, ht₁⟩ := hl.traced
    refine .of_traced ht₁ ⟨ms, congrArg _ ht.moments, fun ho => ?_⟩
    have hfalse := hheeds ho
    rw [ht.isCancelled, Bool.or_eq_false_iff] at hfalse
    exact hfalse

theorem ends_copyInto {temporary : Files.Temporary} {u : Unit} (h : Ends (Options.copyInto temporary path) w u w') :
    ∃ place b, w.files.openFile path = .ok place ∧ w.files.contents place = b ∧
      { w with files := w.files.set temporary.place (.file b) } = w' := by
  unfold Options.copyInto at h
  obtain ⟨_, w₁, haccess, h⟩ := ends_bind.mp h
  obtain ⟨-, rfl⟩ := ends_access.mp haccess
  obtain ⟨w₀, w₁, hg, h⟩ := ends_bind.mp h
  obtain ⟨rfl, rfl⟩ := ends_get.mp hg
  obtain ⟨place, w₁, hl, h⟩ := ends_bind.mp h
  obtain ⟨hlocate, rfl⟩ := ends_ofFault.mp hl
  split at h
  · exact nomatch h
  · exact nomatch h
  · next b hb =>
    exact ⟨place, b, Files.openFile_eq_ok.mpr ⟨hlocate, b, hb⟩, Files.contents_eq_of_node? hb, ends_modify.mp h⟩

/-- To relabel a file in its place replaces that file. There may be none if the path is the one of the copy
itself; then nothing changes. -/
theorem ends_runInPlace_replaced (hw : w.Unshared) (h : Ends (o.runInPlace path) w report w') :
    (w.files.Replaced w'.files path ∨ w'.files = w.files ∧ ∀ p, w.files.openFile path ≠ .ok p) ∧
      ClosedAfterCheck o path report w w' := by
  obtain ⟨temporary, files, hc, h⟩ := ends_withTemporary h
  obtain ⟨_, w₂, h₂, h⟩ := ends_bind.mp h
  obtain ⟨-, b₀, -, -, rfl⟩ := ends_copyInto h₂
  obtain ⟨_, w₃, h₃, h⟩ := ends_bind.mp h
  obtain rfl := ends_tell.mp h₃
  obtain ⟨report', w₄, h₄, h⟩ := ends_bind.mp h
  obtain ⟨_, w₅, haccess, h⟩ := ends_bind.mp h
  obtain ⟨-, rfl⟩ := ends_access.mp haccess
  obtain ⟨_, w₅, h₅, h⟩ := ends_bind.mp h
  obtain rfl := ends_modify.mp h₅
  obtain ⟨rfl, rfl⟩ := ends_pure.mp h
  obtain ⟨hn, rfl⟩ := Files.createTemporary_eq_ok hc
  rw [Files.set_set_of_node? hn] at h₄
  have hw₂ : World.Unshared { w with files := w.files.set temporary.place (.file b₀) } := hw
  have hk₃ := World.kept_meet hw₂ (.told (.copied path temporary.path))
  obtain ⟨hreplaced, hclosed⟩ := ends_run_replaced (hk₃.unshared hw₂) h₄
  rw [hk₃.files] at hreplaced
  refine ⟨hreplaced.remove hn, ?_⟩
  have ht := World.traced_meet { w with files := w.files.set temporary.place (.file b₀) }
    (.told (.copied path temporary.path))
  exact .of_traced ⟨ht.outside, ht.moments, ht.isCancelled⟩ hclosed

/-! ## All or nothing -/

/-- Work that is to write to `output` fails, and the files are as they were, or it ends well, and the files
have changed as `changed` says. In that case no stop had been asked for when it last looked. -/
-- irreducible, since to unfold it in the statement of a concrete run would run it
@[irreducible] def AllOrNothing (o : Options) (w : World) (work : Session Report) (output : String)
    (changed : Files → Prop) : Prop :=
  match outcome work w with
  | (.error _, w') => w'.files = w.files
  | (.ok report, w') => changed w'.files ∧ ClosedAfterCheck o output report w w'

theorem AllOrNothing.of_error {work : Session Report} {changed : Files → Prop} {e : Error}
    (h : AllOrNothing o w work output changed) (he : (outcome work w).1 = .error e) :
    ∃ w', outcome work w = (.error e, w') ∧ w'.files = w.files := by
  unfold AllOrNothing at h
  rcases hr : outcome work w with ⟨result, w'⟩
  rw [hr] at h he
  obtain rfl : result = .error e := he
  exact ⟨w', rfl, h⟩

/-- A run, whatever others ask of it and at whatever moment, and however the device fails, replaces the file at its
output path and changes nothing else, or it fails and changes nothing at all. So does a run in the place of a file,
if temporary files can always be closed. Nobody else may write to files meanwhile. -/
theorem run_allOrNothing {w : World} (hw : w.Unshared) (o : Options) (input output path : String) :
    AllOrNothing o w (o.run input output) output (w.files.Replaced · output) ∧
      (w.device.Closes → AllOrNothing o w (o.runInPlace path) path fun files =>
        w.files.Replaced files path ∨ files = w.files ∧ ∀ p, w.files.openFile path ≠ .ok p) := by
  constructor
  · unfold AllOrNothing
    rcases h : outcome (o.run input output) w with ⟨e | report, w'⟩
    · exact undone_run (D := fun _ => True) o input output w e w' hw trivial h
    · exact ends_run_replaced hw h
  · intro hcloses
    unfold AllOrNothing
    rcases h : outcome (o.runInPlace path) w with ⟨e | report, w'⟩
    · exact undone_runInPlace o path w e w' hw hcloses h
    · exact ends_runInPlace_replaced hw h

/-- The output path leads to a file already, and a stop is asked for at the last moment that it is heeded. -/
def stoppedWorld : World where
  files := nestedWorld.files.set ["out.zip"] (.file [111, 108, 100])
  outside := fun before _ => { cancels := before.length = 22 }

set_option maxRecDepth 100000 in
theorem outcome_stoppedWorld :
    (outcome (({ watched := true } : Options).run "in.zip" "out.zip") stoppedWorld).1 = .error .cancelled := by
  decide +kernel

/-- The device takes the output and has no room to keep it. -/
def fullWorld : World where
  files := stoppedWorld.files
  device := fun _ a => if a.operation = .sync then some (.other (.other "StorageFull") "no space left") else none

set_option maxRecDepth 100000 in
theorem outcome_fullWorld :
    (outcome (({} : Options).runInPlace "in.zip") fullWorld).1 =
      .error (.io (.other (.other "StorageFull") "no space left")) := by
  decide +kernel

theorem run_allOrNothing_stoppedWorld :
    stoppedWorld.Unshared ∧ fullWorld.Unshared ∧ fullWorld.device.Closes ∧
      (∃ w', outcome (({ watched := true } : Options).run "in.zip" "out.zip") stoppedWorld = (.error .cancelled, w') ∧
        w'.files = stoppedWorld.files) ∧
      ∃ w', outcome (({} : Options).runInPlace "in.zip") fullWorld =
          (.error (.io (.other (.other "StorageFull") "no space left")), w') ∧
        w'.files = fullWorld.files := by
  have hstopped : stoppedWorld.Unshared := fun _ _ => rfl
  have hfull : fullWorld.Unshared := fun _ _ => rfl
  have hcloses : fullWorld.device.Closes := fun _ => rfl
  have hrun := (run_allOrNothing hstopped { watched := true } "in.zip" "out.zip" "in.zip").1
  have hinPlace := (run_allOrNothing hfull {} "in.zip" "out.zip" "in.zip").2 hcloses
  have hcancelled := hrun.of_error outcome_stoppedWorld
  have hfailed := hinPlace.of_error outcome_fullWorld
  exact ⟨hstopped, hfull, hcloses, hcancelled, hfailed⟩

end SourceLabel.Relabel
