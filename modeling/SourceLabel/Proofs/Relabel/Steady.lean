import SourceLabel.Proofs.Relabel.Collected

/-!
# Passes over a file that stays as it is

As long as the file at its input path is not changed, a pass comes to what its step function makes of the
traversal of the tree of that file, whether this is a failure or not. Others may write to all other files
meanwhile. They can end the pass early only by asking for a stop. Besides, the device may fail.
-/
namespace SourceLabel

/-- The path leads to a file at this place, and this is what the file holds. -/
structure Files.Holds (f : Files) (path : String) (place : Place) (b : Bytes) : Prop where
  openFile : f.openFile path = .ok place
  contents : f.contents place = b

theorem Files.Holds.createTemporary {f f' : Files} {path directory suffix : String} {place : Place} {b : Bytes}
    {tags : List String} {t : Files.Temporary} (h : f.Holds path place b)
    (hc : f.createTemporary directory suffix tags = .ok (t, f')) : f'.Holds path place b := by
  obtain ⟨hopen, hcontents⟩ := openFile_createTemporary h.openFile hc
  exact ⟨hopen, hcontents.trans h.contents⟩

/-- The store of files does not take the output: there can be no temporary file beside it, or nothing can be
published under its path. -/
def Files.Refuses (output : String) (fault : IoFault) : Prop :=
  (∃ (f : Files) (tags : List String), f.createTemporary (parent output) "" tags = .error fault) ∨
    ∃ (f : Files) (t : Files.Temporary) (b : Bytes), f.publish t b output = .error fault

namespace Relabel

open Session Result Walk

/-! ## Files that others leave alone -/

/-- What others write at a moment, written to a store. -/
def Intervention.writeTo (act : Intervention) (f : Files) : Files :=
  act.writes.foldl (fun f write => World.writeFile f write.1 write.2) f

/-- The path leads to a file that holds `b`, and nothing that others do from now on changes this. -/
structure World.Steady (path : String) (place : Place) (b : Bytes) (w : World) : Prop where
  holds : w.files.Holds path place b
  kept : ∀ moments m f, w.moments <:+ moments → f.home = w.files.home → f.Holds path place b →
    ((w.outside moments m).writeTo f).Holds path place b

namespace World

variable {path : String} {place : Place} {b : Bytes} {w : World}

theorem home_writeFile (f : Files) (path : String) (b : Bytes) : (writeFile f path b).home = f.home := by
  unfold writeFile
  split
  · next f' h =>
    unfold Files.write at h
    obtain ⟨p, -, h⟩ := bind_eq_ok.mp h
    split at h
    · exact nomatch h
    · obtain rfl := Except.ok.inj h
      exact Files.home_set f p _
  · rfl

theorem home_writeTo (act : Intervention) (f : Files) : (act.writeTo f).home = f.home := by
  unfold Intervention.writeTo
  induction act.writes generalizing f with
  | nil => rfl
  | cons write writes ih => exact (ih _).trans (home_writeFile f _ _)

theorem Steady.meet (hw : w.Steady path place b) (m : Moment) : (w.meet m).Steady path place b := by
  constructor
  · exact hw.kept w.moments m w.files List.suffix_rfl rfl hw.holds
  · intro moments m' f hm hh hf
    refine hw.kept moments m' f ((List.suffix_cons m w.moments).trans hm) (hh.trans ?_) hf
    exact home_writeTo (w.outside w.moments m) w.files

theorem Steady.createTemporary {directory suffix : String} {tags : List String} {t : Files.Temporary}
    {files : Files} (hw : w.Steady path place b)
    (hc : w.files.createTemporary directory suffix tags = .ok (t, files)) :
    ({ w with files } : World).Steady path place b := by
  refine ⟨hw.holds.createTemporary hc, fun moments m f hm hh hf => hw.kept moments m f hm (hh.trans ?_) hf⟩
  obtain ⟨-, rfl⟩ := Files.createTemporary_eq_ok hc
  exact Files.home_set w.files _ _

theorem lasting_steady (path : String) (place : Place) (b : Bytes) :
    Lasting fun w w' => w.Steady path place b → w'.Steady path place b where
  refl _ hw := hw
  trans h h' hw := h' (h hw)
  meet _ m hw := hw.meet m
  phase _ _ hw := ⟨hw.holds, hw.kept⟩
  progress _ _ _ hw := ⟨hw.holds, hw.kept⟩

theorem Unshared.steady (hw : w.Unshared) (h : w.files.Holds path place b) : w.Steady path place b := by
  refine ⟨h, fun moments m f _ _ hf => ?_⟩
  unfold Intervention.writeTo
  rw [hw moments m]
  exact hf

end World

/-! ## However a pass ends -/

namespace Session

variable {w w' : World} {m : Session α} {k : α → Session β}

theorem outcome_bind_of_ends {x : α} (h : Ends m w x w') : outcome (m >>= k) w = outcome (k x) w' := by
  rw [outcome_bind, h]

theorem outcome_bind_of_error {e : Error} (h : outcome m w = (.error e, w')) :
    outcome (m >>= k) w = (.error e, w') := by
  rw [outcome_bind, h]

theorem fails_bind {e : Error} (h : (outcome (m >>= k) w).1 = .error e) :
    (outcome m w).1 = .error e ∨ ∃ x w', Ends m w x w' ∧ (outcome (k x) w').1 = .error e := by
  rw [outcome_bind] at h
  rcases hm : outcome m w with ⟨e' | x, w'⟩
  · rw [hm] at h
    exact .inl (congrArg Except.error (Except.error.inj h))
  · rw [hm] at h
    exact .inr ⟨x, w', hm, h⟩

theorem Obeys.ends {R : World → World → Prop} (h : Obeys R (fun _ => False) m) (w : World) :
    ∃ x w', Ends m w x w' ∧ R w w' := by
  have hf := h.fails w
  have hr := h.moves w
  unfold Ends
  rcases ho : outcome m w with ⟨e | x, w'⟩
  · rw [ho] at hf
    exact (hf e rfl).elim
  · rw [ho] at hr
    exact ⟨x, w', rfl, hr⟩

end Session

/-- There is a use in which the device fails, and then a run fails with `e`. -/
def Device.Raises (d : Device) (e : Error) : Prop :=
  ∃ moments a fault, d moments a = some fault ∧ a.failure fault = e

theorem Device.Raises.of_failure? {w : World} {a : Access} {e : Error} (h : w.failure? a = some e) :
    w.device.Raises e := by
  obtain ⟨fault, hfault, he⟩ := Option.map_eq_some_iff.mp h
  exact ⟨_, a, fault, hfault, he⟩

/-- Work with these options was cut short: it heeded a request to stop, or the device failed after some of the
moments. -/
inductive Interrupted (o : Options) : Except Error α → World → Prop
  | stopped {w : World} : o.watched = true → w.progress.isCancelled = true → Interrupted o (.error .cancelled) w
  | device {w : World} {moments : List Moment} {a : Access} {fault : IoFault} :
      moments <:+ w.moments → w.device moments a = some fault → Interrupted o (.error (a.failure fault)) w

theorem Interrupted.cancelled_or_raises {o : Options} {r : Except Error α} {w : World} {e : Error}
    (h : Interrupted o r w) (hr : r = .error e) :
    (o.watched = true ∧ e = .cancelled) ∨ w.device.Raises e := by
  cases h with
  | stopped hwatched _ => exact .inl ⟨hwatched, (Except.error.inj hr).symm⟩
  | device _ hfault => exact .inr ⟨_, _, _, hfault, Except.error.inj hr⟩

namespace Session

variable {m : Session α} {w w' : World} {o : Options}

theorem Ends.of_not_interrupted {x : α} {r : Except Error α} (h : Ends m w x w')
    (ho : Interrupted o (outcome m w).1 (outcome m w).2 ∨ (outcome m w).1 = r) : r = .ok x := by
  rw [h] at ho
  rcases ho with hcut | hr
  · exact nomatch hcut
  · exact hr.symm

theorem interrupted_bind (h : Interrupted o (outcome m w).1 (outcome m w).2) (k : α → Session β) :
    Interrupted o (outcome (m >>= k) w).1 (outcome (m >>= k) w).2 := by
  rw [outcome_bind]
  rcases hm : outcome m w with ⟨r, w'⟩
  rw [hm] at h
  dsimp only at h
  cases h with
  | stopped hwatched hasked => exact .stopped hwatched hasked
  | device hmoments hfault => exact .device hmoments hfault

theorem checkpoint_cases (o : Options) (w : World) :
    Interrupted o (outcome (checkpoint o.watched) w).1 (outcome (checkpoint o.watched) w).2 ∨
      Ends (checkpoint o.watched) w () (w.meet .checkpoint) := by
  have hcheck := outcome_checkpoint o.watched w
  split at hcheck
  · next hstop =>
    rw [hcheck]
    exact .inl (.stopped (Bool.and_eq_true_iff.mp hstop).1 (Bool.and_eq_true_iff.mp hstop).2)
  · exact .inr hcheck

theorem access_cases (o : Options) (a : Access) (w : World) :
    Interrupted o (outcome (access a) w).1 (outcome (access a) w).2 ∨ Ends (access a) w () w := by
  cases hfailure : w.failure? a with
  | none => exact .inr (ends_access.mpr ⟨hfailure, rfl⟩)
  | some e =>
    obtain ⟨fault, hfault, rfl⟩ := Option.map_eq_some_iff.mp hfailure
    rw [outcome_access, hfailure]
    exact .inl (.device List.suffix_rfl hfault)

theorem raises_of_reachAll {accesses : List Access} {e : Error}
    (h : (outcome (performAll (accesses.map .reach)) w).1 = .error e) : w.device.Raises e := by
  unfold performAll at h
  induction accesses with
  | nil => exact nomatch h
  | cons a accesses ih =>
    rcases fails_bind h with ha | ⟨_, w₁, ha, h⟩
    · change (outcome (access a) w).1 = _ at ha
      rw [outcome_access] at ha
      cases hfailure : w.failure? a with
      | none => simp [hfailure] at ha
      | some e' =>
        rw [hfailure] at ha
        obtain rfl := Except.error.inj ha
        exact .of_failure? hfailure
    · obtain ⟨-, rfl⟩ := ends_access.mp ha
      exact ih h

theorem performAll_cases (o : Options) (acts : List Act) (w : World) :
    Interrupted o (outcome (performAll acts) w).1 (outcome (performAll acts) w).2 ∨
      ∃ w', Ends (performAll acts) w () w' := by
  unfold performAll
  induction acts generalizing w with
  | nil => exact .inr ⟨w, ends_pure.mpr ⟨rfl, rfl⟩⟩
  | cons act acts ih =>
    have hfirst : Interrupted o (outcome (perform act) w).1 (outcome (perform act) w).2 ∨
        ∃ w', Ends (perform act) w () w' := by
      cases act with
      | tell r => exact .inr ⟨_, ends_tell.mpr rfl⟩
      | reach a => exact (access_cases o a w).imp_right fun h => ⟨w, h⟩
    rcases hfirst with hcut | ⟨w₁, hends⟩
    · exact .inl (interrupted_bind hcut _)
    · rw [List.forM, outcome_bind_of_ends hends]
      rcases ih w₁ with hcut | ⟨w₂, hrest⟩
      · exact .inl hcut
      · exact .inr ⟨w₂, ends_bind.mpr ⟨(), w₁, hends, hrest⟩⟩

end Session

section

variable {σ : Type} {step : σ → Event → Except Error σ × List Act} {s : σ} {w : World} {o : Options}
  {path : String} {place : Place} {b : Bytes}

/-- A pass makes of an event what its step does, and goes on with what is still to come, unless it is interrupted. -/
theorem outcome_event {event : Event} {events : List (Except Error Event)} {k : σ → Session σ}
    (hw : w.Steady path place b) (hk : ∀ s' w', w'.Steady path place b →
      Interrupted o (outcome (k s') w').1 (outcome (k s') w').2 ∨ (outcome (k s') w').1 = feed step s' events) :
    let turn : Session σ := do
      o.record event
      performAll (step s event).2
      k (← ofExcept (step s event).1)
    Interrupted o (outcome turn w).1 (outcome turn w).2 ∨ (outcome turn w).1 = feed step s (.ok event :: events) := by
  have hR := World.lasting_steady path place b
  obtain ⟨_, w₁, hrecord, hs₁⟩ := (obeys_record hR o event).ends w
  replace hs₁ := hs₁ hw
  dsimp only
  rw [outcome_bind_of_ends hrecord, feed]
  rcases performAll_cases o (step s event).2 w₁ with hcut | ⟨w₂, hperform⟩
  · exact .inl (interrupted_bind hcut _)
  have hs₂ := (obeys_performAll (P := fun _ => True) hR (fun _ _ => trivial) _).of_ends hperform hs₁
  rw [outcome_bind_of_ends hperform]
  cases hstep : (step s event).1 with
  | error e => exact .inr rfl
  | ok s' =>
    have hok : Ends (ofExcept (.ok s') : Session σ) w₂ s' w₂ := ends_ofExcept.mpr ⟨rfl, rfl⟩
    rw [outcome_bind_of_ends hok]
    exact hk s' w₂ hs₂

/-- The loop of a pass goes through what is still to come, unless it is interrupted. -/
theorem outcome_sweep {fuel : Nat} {walk : Walk} (hw : w.Steady path place b) (hf : walk.potential < fuel)
    (hd : walk.isDone = false) :
    Interrupted o (outcome (o.sweep place step fuel walk s) w).1 (outcome (o.sweep place step fuel walk s) w).2 ∨
      (outcome (o.sweep place step fuel walk s) w).1 = feed step s (walk.remaining b) := by
  induction fuel generalizing walk s w with
  | zero => exact absurd hf (Nat.not_lt_zero _)
  | succ fuel ih =>
    have hR := World.lasting_steady path place b
    have hn := Walk.next_remaining walk b hd
    have hget : Ends (get : Session World) w w w := ends_get.mpr ⟨rfl, rfl⟩
    unfold Options.sweep
    rw [outcome_bind_of_ends hget]
    dsimp only
    rcases goOn_cases w place walk with hgo | ⟨a, fault, hfault, hgo⟩
    · rw [hgo, hw.holds.contents]
      obtain ⟨_, w₁, ht, hs₁⟩ := (obeys_tellAll hR (walk.next b).told).ends w
      replace hs₁ := hs₁ hw
      rw [outcome_bind_of_ends ht]
      cases hr : (walk.next b).result with
      | none =>
        rw [hr] at hn
        exact .inr (by rw [hn]; rfl)
      | some result =>
        dsimp only
        rcases checkpoint_cases o w₁ with hcut | hcheck
        · exact .inl (interrupted_bind hcut _)
        rw [outcome_bind_of_ends hcheck]
        cases result with
        | error e =>
          rw [hr] at hn
          obtain ⟨rest, hn⟩ := hn
          exact .inr (by rw [hn]; rfl)
        | ok event =>
          rw [hr] at hn
          have hok : Ends (ofExcept (.ok event) : Session Event) (w₁.meet .checkpoint) event
            (w₁.meet .checkpoint) := ends_ofExcept.mpr ⟨rfl, rfl⟩
          have hlt := Walk.next_potential_lt hr
          rw [outcome_bind_of_ends hok, hn.1]
          exact outcome_event (hs₁.meet .checkpoint) fun s' w' hs' => ih hs' (by omega) hn.2
    · -- the run looks whether it should stop before it fails
      have htell : Ends (Options.tellAll []) w () w := ends_pure.mpr ⟨rfl, rfl⟩
      rw [hgo, outcome_bind_of_ends htell]
      refine .inl ?_
      rcases checkpoint_cases o w with hcut | hcheck
      · exact interrupted_bind hcut _
      · rw [outcome_bind_of_ends hcheck]
        exact .device (List.suffix_cons _ _) hfault

/-- A whole pass goes through the traversal of the tree of its input, unless it is interrupted. -/
theorem outcome_walkOver (o : Options) (step : σ → Event → Except Error σ × List Act) (s : σ)
    (hw : w.Steady path place b) :
    Interrupted o (outcome (o.walkOver path step s) w).1 (outcome (o.walkOver path step s) w).2 ∨
      (outcome (o.walkOver path step s) w).1 = feed step s (Tree.ofFile (Files.fileName path) b).preorder := by
  have hget : Ends (get : Session World) w w w := ends_get.mpr ⟨rfl, rfl⟩
  have hopen : Ends (ofFault (w.files.openFile path)) w place w := ends_ofFault.mpr ⟨hw.holds.openFile, rfl⟩
  unfold Options.walkOver
  rcases access_cases o { operation := .openFile } w with hcut | haccess
  · exact .inl (interrupted_bind hcut _)
  rw [outcome_bind_of_ends haccess, outcome_bind_of_ends hget]
  dsimp only
  rw [outcome_bind_of_ends hopen]
  rcases access_cases o { operation := .read, container? := Walk.root? (Files.fileName path) } w with hcut | haccess
  · exact .inl (interrupted_bind hcut _)
  rw [outcome_bind_of_ends haccess, hw.holds.contents]
  cases hs : start (Files.fileName path) b with
  | error e => exact .inr (by rw [Walk.preorder_of_start hs]; rfl)
  | ok started =>
    obtain ⟨walk, told⟩ := started
    have hstart := Walk.remaining_of_start hs
    have hok : Ends (ofExcept (.ok (walk, told)) : Session (Walk × List Record)) w (walk, told) w :=
      ends_ofExcept.mpr ⟨rfl, rfl⟩
    obtain ⟨_, w₁, ht, hs₁⟩ := (obeys_tellAll (World.lasting_steady path place b) told).ends w
    rw [outcome_bind_of_ends hok]
    dsimp only
    rw [outcome_bind_of_ends ht, ← hstart.2]
    exact outcome_sweep (hs₁ hw) (Nat.lt_succ_self _) hstart.1

theorem outcome_collect (o : Options) (hw : w.Steady path place b) :
    Interrupted o (outcome (o.collect path) w).1 (outcome (o.collect path) w).2 ∨
      (outcome (o.collect path) w).1 =
        feed (Collection.step o.policy) {} (Tree.ofFile (Files.fileName path) b).preorder := by
  obtain ⟨_, w₁, hp, hs₁⟩ := (obeys_startPass (World.lasting_steady path place b) o 1).ends w
  unfold Options.collect
  rw [outcome_bind_of_ends hp]
  exact outcome_walkOver o _ _ (hs₁ hw)

/-- What a pass ends well with is made of the traversal alone. -/
theorem feed_of_ends_walkOver {w' : World} {s' : σ} (hw : w.Steady path place b)
    (h : Ends (o.walkOver path step s) w s' w') :
    feed step s (Tree.ofFile (Files.fileName path) b).preorder = .ok s' :=
  h.of_not_interrupted (outcome_walkOver o step s hw)

theorem feed_of_ends_collect {w' : World} {c : Collection} (hw : w.Steady path place b)
    (h : Ends (o.collect path) w c w') :
    feed (Collection.step o.policy) {} (Tree.ofFile (Files.fileName path) b).preorder = .ok c :=
  h.of_not_interrupted (outcome_collect o hw)

theorem steady_of_ends_collect {w' : World} {c : Collection} (hw : w.Steady path place b)
    (h : Ends (o.collect path) w c w') : w'.Steady path place b :=
  (obeys_collect (P := fun _ => True) (World.lasting_steady path place b) (fun _ _ => trivial) o path).of_ends h hw

end

/-! ## How a run fails -/

namespace Session

variable {o : Options} {input output : String} {w : World} {e : Error}

theorem fails_withTemporary {directory suffix : String} {act : Files.Temporary → Session α}
    (h : (outcome (withTemporary directory suffix act) w).1 = .error e) :
    w.failure? { operation := .create } = some e ∨
      (∃ fault, w.files.createTemporary directory suffix w.tags = .error fault ∧ e = .io fault) ∨
        ∃ temporary files, w.files.createTemporary directory suffix w.tags = .ok (temporary, files) ∧
          (outcome (act temporary) { w with files }).1 = .error e := by
  rw [outcome_withTemporary] at h
  cases hd : w.failure? { operation := .create } with
  | some e' =>
    simp only [hd] at h
    exact .inl (congrArg some (Except.error.inj h))
  | none =>
    refine .inr ?_
    rcases hc : w.files.createTemporary directory suffix w.tags with fault | ⟨temporary, files⟩
    · simp only [hd, hc] at h
      exact .inl ⟨fault, rfl, (Except.error.inj h).symm⟩
    · simp only [hd, hc] at h
      refine .inr ⟨temporary, files, rfl, ?_⟩
      rcases ho : outcome (act temporary) { w with files } with ⟨e' | x, w'⟩
      · simp only [ho] at h
        exact congrArg Except.error (Except.error.inj h)
      · simp only [ho] at h
        exact nomatch h

section

variable {σ : Type} {step : σ → Event → Except Error σ × List Act} {s s' : σ} {w' : World}

theorem device_walkOver : (outcome (o.walkOver input step s) w).2.device = w.device :=
  (obeys_walkOver (P := fun _ => True) World.lasting_device (fun _ _ => trivial) (takes_true _ _) trivial).moves w

theorem device_of_ends_walkOver (h : Ends (o.walkOver input step s) w s' w') : w'.device = w.device := by
  have hlast : (outcome (o.walkOver input step s) w).2.device = w.device := device_walkOver
  rwa [h] at hlast

end

theorem fails_checkpoint (h : (outcome (checkpoint o.watched) w).1 = .error e) : o.watched = true ∧ e = .cancelled := by
  rw [outcome_checkpoint] at h
  split at h
  · next hstop => exact ⟨(Bool.and_eq_true_iff.mp hstop).1, (Except.error.inj h).symm⟩
  · exact nomatch h

/-- The output does not take its place if the device fails, or if the store of files refuses it. -/
theorem fails_publish {temporary : Files.Temporary} {bytes : Bytes} {x : α}
    (h : (outcome (do
      performAll (Options.publication.map .reach)
      let files ← ofFault ((← get).files.publish temporary bytes output)
      modify ({ · with files })
      return x) w).1 = .error e) :
    w.device.Raises e ∨ ∃ fault, w.files.publish temporary bytes output = .error fault ∧ e = .io fault := by
  rcases fails_bind h with hreach | ⟨_, w₁, hreach, h⟩
  · exact .inl (raises_of_reachAll hreach)
  obtain ⟨-, rfl⟩ := ends_reachAll.mp hreach
  have hget : Ends (get : Session World) w w w := ends_get.mpr ⟨rfl, rfl⟩
  rw [outcome_bind_of_ends hget] at h
  cases hpublish : w.files.publish temporary bytes output with
  | error fault =>
    rw [hpublish] at h
    exact .inr ⟨fault, rfl, (Except.error.inj h).symm⟩
  | ok files =>
    rw [hpublish] at h
    exact nomatch h

/-- A second pass fails by the store of files, by the device, by a stop, by its walk, or because writers are left
open. -/
theorem fails_writeOutput_steps {pool : ClassPool}
    (h : (outcome (o.writeOutput input output pool) w).1 = .error e) :
    (∃ fault, Files.Refuses output fault ∧ e = .io fault) ∨ w.device.Raises e ∨ (o.watched = true ∧ e = .cancelled) ∨
      ∃ w₁ temporary files, Ends (o.startPass 2) w () w₁ ∧
        w₁.files.createTemporary (Files.parent output) "" w₁.tags = .ok (temporary, files) ∧
        ((outcome (o.walkOver input (Assembly.step pool)
            { plan := .forOutput (Files.fileName output), level := o.level }) { w₁ with files }).1 = .error e ∨
          ∃ a w₂, Ends (o.walkOver input (Assembly.step pool)
            { plan := .forOutput (Files.fileName output), level := o.level }) { w₁ with files } a w₂ ∧
            a.finish = .error e) := by
  obtain ⟨_, w₁, hs, hdevice⟩ := (obeys_startPass World.lasting_device o 2).ends w
  unfold Options.writeOutput at h
  rw [outcome_bind_of_ends hs] at h
  rcases fails_withTemporary h with hcreate | ⟨fault, hc, he⟩ | ⟨temporary, files, hc, h⟩
  · exact .inr (.inl (hdevice ▸ .of_failure? hcreate))
  · exact .inl ⟨fault, .inl ⟨_, _, hc⟩, he⟩
  rcases fails_bind h with hwalk | ⟨a, w₂, hwalk, h⟩
  · exact .inr (.inr (.inr ⟨w₁, temporary, files, hs, hc, .inl hwalk⟩))
  replace hdevice : w₂.device = w.device := (device_of_ends_walkOver hwalk).trans hdevice
  rcases fails_bind h with hcheck | ⟨_, w₃, hcheck, h⟩
  · exact .inr (.inr (.inl (fails_checkpoint hcheck)))
  obtain ⟨-, rfl⟩ := ends_checkpoint.mp hcheck
  cases hfinish : a.finish with
  | error e' =>
    rw [hfinish] at h
    obtain rfl := Except.error.inj h
    exact .inr (.inr (.inr ⟨w₁, temporary, files, hs, hc, .inr ⟨a, w₂, hwalk, hfinish⟩⟩))
  | ok bytes =>
    have hok : Ends (ofExcept (.ok bytes) : Session Bytes) (w₂.meet .checkpoint) bytes (w₂.meet .checkpoint) :=
      ends_ofExcept.mpr ⟨rfl, rfl⟩
    rw [hfinish, outcome_bind_of_ends hok] at h
    rcases fails_publish h with hraises | ⟨fault, hpublish, he⟩
    · rw [World.device_meet, hdevice] at hraises
      exact .inr (.inl hraises)
    · exact .inl ⟨fault, .inr ⟨_, _, _, hpublish⟩, he⟩

theorem outcome_setPhase_tell (phase : Phase) (r : Record) (k : Session α) (w : World) :
    outcome (do setPhase phase; tell r; k) w = outcome k (w.reach phase r) := by
  have hphase : Ends (setPhase phase) w () { w with phase } := ends_modify.mpr rfl
  have htell : Ends (tell r) { w with phase } () (w.reach phase r) := ends_tell.mpr rfl
  rw [outcome_bind_of_ends hphase, outcome_bind_of_ends htell]

/-- A run fails in its first pass, or in the second with what the first has collected. -/
theorem fails_run_steps (h : (outcome (o.run input output) w).1 = .error e) :
    (outcome (o.collect input) (w.reach .collecting (.collecting input))).1 = .error e ∨
      ∃ c w₁, Ends (o.collect input) (w.reach .collecting (.collecting input)) c w₁ ∧
        (outcome (o.writeOutput input output c.pool)
          ((w₁.meet (.told (.collected c.parsed c.relabelled c.unlabelled))).reach .writing
            (.writing output))).1 = .error e := by
  unfold Options.run at h
  rw [outcome_setPhase_tell] at h
  rcases fails_bind h with hcollect | ⟨c, w₁, hcollect, h⟩
  · exact .inl hcollect
  have htell : Ends (tell (.collected c.parsed c.relabelled c.unlabelled)) w₁ ()
    (w₁.meet (.told (.collected c.parsed c.relabelled c.unlabelled))) := ends_tell.mpr rfl
  rw [outcome_bind_of_ends htell, outcome_setPhase_tell] at h
  rcases fails_bind h with hwrite | ⟨⟨a, size⟩, w₂, -, h⟩
  · exact .inr ⟨c, w₁, hcollect, hwrite⟩
  · rw [outcome_setPhase_tell] at h
    exact nomatch h

end Session
end Relabel
end SourceLabel
