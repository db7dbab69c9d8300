import SourceLabel.Proofs.Result
import SourceLabel.Relabel.Run

/-!
# What comes of a session

A session that ends well is taken apart into its steps, each of which ended well. What holds of a session
however it ends is put together from its steps: how it may change the world, and which failures it may end
with. As long as nobody else writes to files, no step but those that mean to changes any.
-/
namespace SourceLabel.Relabel

open Result

/-- Nobody else writes to files. Others may still ask for a stop. -/
def World.Unshared (w : World) : Prop :=
  ∀ moments m, (w.outside moments m).writes = []

/-- Files are as they were, and the same others are around. -/
structure World.Kept (w w' : World) : Prop where
  files : w'.files = w.files
  outside : w'.outside = w.outside

namespace World

theorem Kept.refl (w : World) : Kept w w := ⟨rfl, rfl⟩

theorem Kept.trans {w w' w'' : World} (h : Kept w w') (h' : Kept w' w'') : Kept w w'' :=
  ⟨h'.files.trans h.files, h'.outside.trans h.outside⟩

theorem Unshared.of_outside {w w' : World} (hw : w.Unshared) (h : w'.outside = w.outside) : w'.Unshared := by
  unfold Unshared
  rw [h]
  exact hw

theorem Kept.unshared {w w' : World} (h : Kept w w') (hw : w.Unshared) : w'.Unshared :=
  hw.of_outside h.outside

@[simp] theorem moments_meet (w : World) (m : Moment) : (w.meet m).moments = m :: w.moments := rfl

@[simp] theorem outside_meet (w : World) (m : Moment) : (w.meet m).outside = w.outside := rfl

@[simp] theorem device_meet (w : World) (m : Moment) : (w.meet m).device = w.device := rfl

@[simp] theorem tags_meet (w : World) (m : Moment) : (w.meet m).tags = w.tags := rfl

@[simp] theorem failure?_progress (w : World) (progress : Progress) (a : Access) :
    ({ w with progress } : World).failure? a = w.failure? a := rfl

theorem kept_meet {w : World} (hw : w.Unshared) (m : Moment) : Kept w (w.meet m) := by
  constructor
  · unfold meet
    simp only [hw w.moments m, List.foldl_nil]
  · rfl

/-- Whatever is done to the world without touching its files keeps to `R`, and so does one such change after
another. -/
structure Lasting (R : World → World → Prop) : Prop where
  refl : ∀ w, R w w
  trans : ∀ {w w' w''}, R w w' → R w' w'' → R w w''
  meet : ∀ w m, R w (w.meet m)
  phase : ∀ w phase, R w { w with phase }
  progress : ∀ w progress, progress.isCancelled = w.progress.isCancelled → R w { w with progress }

theorem lasting_true : Lasting fun _ _ => True :=
  ⟨fun _ => trivial, fun _ _ => trivial, fun _ _ => trivial, fun _ _ => trivial, fun _ _ _ => trivial⟩

theorem lasting_device : Lasting fun w w' => w'.device = w.device where
  refl _ := rfl
  trans h h' := h'.trans h
  meet _ _ := rfl
  phase _ _ := rfl
  progress _ _ _ := rfl

theorem lasting_kept : Lasting fun w w' => w.Unshared → w.Kept w' where
  refl w _ := .refl w
  trans h h' hw := (h hw).trans (h' ((h hw).unshared hw))
  meet _ m hw := kept_meet hw m
  phase _ _ _ := ⟨rfl, rfl⟩
  progress _ _ _ _ := ⟨rfl, rfl⟩

end World

namespace Session

/-- What comes of a session in a world. -/
def outcome (m : Session α) (w : World) : Except Error α × World := m.run w

/-- The session ends well: it yields `x` and leaves the world `w'`. -/
def Ends (m : Session α) (w : World) (x : α) (w' : World) : Prop :=
  outcome m w = (.ok x, w')

variable {w w' w'' : World}

theorem outcome_bind (m : Session α) (k : α → Session β) (w : World) :
    outcome (m >>= k) w =
      match outcome m w with
      | (.ok x, w') => outcome (k x) w'
      | (.error e, w') => (.error e, w') := by
  have hb : outcome (m >>= k) w = ExceptT.bindCont k (outcome m w).1 (outcome m w).2 := rfl
  rw [hb]
  rcases outcome m w with ⟨e | x, w'⟩
  · rfl
  · rfl

theorem ends_bind {m : Session α} {k : α → Session β} {y : β} :
    Ends (m >>= k) w y w'' ↔ ∃ x w', Ends m w x w' ∧ Ends (k x) w' y w'' := by
  unfold Ends
  rw [outcome_bind]
  rcases outcome m w with ⟨e | x, w₁⟩
  · simp
  · simp [and_assoc]

theorem ends_of_toOption {m : Session α} {x : α} (h : (outcome m w).1.toOption = some x) :
    ∃ w', Ends m w x w' := by
  unfold Ends
  generalize outcome m w = r at h
  rcases r with ⟨e | y, w'⟩
  · exact nomatch h
  · obtain rfl := Option.some.inj h
    exact ⟨w', rfl⟩

@[simp] theorem ends_pure {x y : α} : Ends (pure x) w y w' ↔ x = y ∧ w = w' := by
  change (Except.ok x, w) = (Except.ok y, w') ↔ _
  rw [Prod.mk.injEq, Except.ok.injEq]

@[simp] theorem ends_get {x : World} : Ends get w x w' ↔ w = x ∧ w = w' := by
  change (Except.ok w, w) = (Except.ok x, w') ↔ _
  rw [Prod.mk.injEq, Except.ok.injEq]

@[simp] theorem ends_modify {f : World → World} {u : PUnit} : Ends (modify f) w u w' ↔ f w = w' := by
  change (Except.ok PUnit.unit, f w) = (Except.ok u, w') ↔ _
  rw [Prod.mk.injEq, and_iff_right rfl]

@[simp] theorem ends_ofExcept {r : Except Error α} {x : α} :
    Ends (ofExcept r) w x w' ↔ r = .ok x ∧ w = w' := by
  cases r with
  | error e =>
    change (Except.error e, w) = (Except.ok x, w') ↔ _
    simp
  | ok y =>
    change (Except.ok y, w) = (Except.ok x, w') ↔ _
    simp

@[simp] theorem ends_ofFault {r : Except IoFault α} {x : α} :
    Ends (ofFault r) w x w' ↔ r = .ok x ∧ w = w' := by
  simp [ofFault]

theorem outcome_tryCatch (m : Session α) (handle : Error → Session α) (w : World) :
    outcome (tryCatch m handle) w =
      match outcome m w with
      | (.ok x, w') => (.ok x, w')
      | (.error e, w') => outcome (handle e) w' := by
  unfold outcome
  simp only [tryCatch, tryCatchThe, MonadExceptOf.tryCatch, ExceptT.tryCatch, ExceptT.run, ExceptT.mk, bind,
    StateT.bind]
  rcases m w with ⟨e | x, w'⟩
  · rfl
  · rfl

@[simp] theorem ends_tell {r : Record} {u : Unit} : Ends (tell r) w u w' ↔ w.meet (.told r) = w' :=
  ends_modify

theorem outcome_access (a : Access) (w : World) :
    outcome (access a) w =
      match w.failure? a with
      | none => (.ok (), w)
      | some e => (.error e, w) := by
  unfold access
  rw [outcome_bind]
  change outcome (match w.failure? a with | none => pure () | some e => throw e) w = _
  cases w.failure? a with
  | none => rfl
  | some e => rfl

@[simp] theorem ends_access {a : Access} {u : Unit} : Ends (access a) w u w' ↔ w.failure? a = none ∧ w = w' := by
  unfold Ends
  rw [outcome_access]
  cases w.failure? a with
  | none => simp
  | some e => simp

theorem ends_reachAll {accesses : List Access} {u : Unit} :
    Ends (performAll (accesses.map .reach)) w u w' ↔ (∀ a ∈ accesses, w.failure? a = none) ∧ w = w' := by
  unfold performAll
  induction accesses with
  | nil => exact ends_pure.trans (by simp)
  | cons a accesses ih =>
    rw [List.map_cons, List.forM, ends_bind]
    change (∃ _ w₁, Ends (access a) w _ w₁ ∧ _) ↔ _
    simp only [ends_access, List.forall_mem_cons, and_assoc]
    constructor
    · rintro ⟨_, _, ha, rfl, h⟩
      exact ⟨ha, ih.mp h⟩
    · rintro ⟨ha, h⟩
      exact ⟨(), w, ha, rfl, ih.mpr h⟩

theorem outcome_checkpoint (heeds : Bool) (w : World) :
    outcome (checkpoint heeds) w =
      if heeds && (w.meet .checkpoint).progress.isCancelled then (.error .cancelled, w.meet .checkpoint)
      else (.ok (), w.meet .checkpoint) := by
  unfold checkpoint
  rw [outcome_bind]
  change outcome (if heeds && (w.meet .checkpoint).progress.isCancelled then throw .cancelled else pure ())
    (w.meet .checkpoint) = _
  split
  · rfl
  · rfl

/-- A session that heeds requests goes on only if there was none. -/
theorem ends_checkpoint {heeds : Bool} {u : Unit} :
    Ends (checkpoint heeds) w u w' ↔
      (heeds && (w.meet .checkpoint).progress.isCancelled) = false ∧ w.meet .checkpoint = w' := by
  unfold Ends
  rw [outcome_checkpoint]
  split
  · next h => simp [h]
  · next h => simp [Bool.eq_false_iff.mpr h]

/-- A handle that is watched counts from the beginning of the pass. -/
@[simp] theorem ends_startPass {o : Options} {pass : Nat} {u : Unit} :
    Ends (o.startPass pass) w u w' ↔
      { w with progress := if o.watched then w.progress.startPass pass else w.progress } = w' := by
  unfold Options.startPass
  cases o.watched with
  | true => exact ends_modify
  | false => exact ends_pure.trans (and_iff_right rfl)

/-! ## However a session ends -/

/-- Whatever comes of the session, the world changes as `R` says, and a failure is as `P` says. -/
structure Obeys (R : World → World → Prop) (P : Error → Prop) (m : Session α) : Prop where
  moves : ∀ w, R w (outcome m w).2
  fails : ∀ w, FailsWith P (outcome m w).1

/-- Whatever comes of the session, a failure is as `P` says. -/
abbrev Fails (P : Error → Prop) (m : Session α) : Prop :=
  Obeys (fun _ _ => True) P m

variable {R : World → World → Prop} {P : Error → Prop} {m : Session α}

theorem Obeys.of_ends {x : α} (hm : Obeys R P m) (h : Ends m w x w') : R w w' := by
  have hr := hm.moves w
  rwa [h] at hr

theorem obeys_bind {k : α → Session β} (hR : World.Lasting R) (hm : Obeys R P m)
    (hk : ∀ x w w', Ends m w x w' → Obeys R P (k x)) : Obeys R P (m >>= k) := by
  constructor
  · intro w
    rw [outcome_bind]
    have hr := hm.moves w
    rcases ho : outcome m w with ⟨e | x, w₁⟩
    · rwa [ho] at hr
    · rw [ho] at hr
      exact hR.trans hr ((hk x w w₁ ho).moves w₁)
  · intro w
    rw [outcome_bind]
    have hf := hm.fails w
    rcases ho : outcome m w with ⟨e | x, w₁⟩
    · rw [ho] at hf
      exact .error (hf e rfl)
    · exact (hk x w w₁ ho).fails w₁

theorem obeys_pure (hR : World.Lasting R) (x : α) : Obeys R P (pure x) :=
  ⟨hR.refl, fun _ => .ok x⟩

theorem obeys_get (hR : World.Lasting R) : Obeys R P (get : Session World) :=
  ⟨hR.refl, fun w => .ok w⟩

theorem obeys_modify {f : World → World} (h : ∀ w, R w (f w)) : Obeys R P (modify f : Session PUnit) :=
  ⟨h, fun _ => .ok _⟩

theorem obeys_ofExcept {r : Except Error α} (hR : World.Lasting R) (h : FailsWith P r) :
    Obeys R P (ofExcept r : Session α) := by
  cases r with
  | error e => exact ⟨hR.refl, fun _ => .error (h e rfl)⟩
  | ok x => exact ⟨hR.refl, fun _ => .ok x⟩

theorem obeys_ofFault {r : Except IoFault α} (hR : World.Lasting R) (h : ∀ fault, P (.io fault)) :
    Obeys R P (ofFault r) :=
  obeys_ofExcept hR (FailsWith.mapError (P := fun _ => True) (fun _ _ => trivial) fun fault _ => h fault)

theorem obeys_tell (hR : World.Lasting R) (r : Record) : Obeys R P (tell r) :=
  obeys_modify fun w => hR.meet w (.told r)

theorem obeys_tellAll (hR : World.Lasting R) (told : List Record) : Obeys R P (Options.tellAll told) := by
  unfold Options.tellAll
  induction told with
  | nil => exact obeys_pure hR _
  | cons r told ih => exact obeys_bind hR (obeys_tell hR r) fun _ _ _ _ => ih

theorem obeys_access (hR : World.Lasting R) (hP : ∀ (a : Access) fault, P (a.failure fault)) (a : Access) :
    Obeys R P (access a) := by
  constructor
  · intro w
    rw [outcome_access]
    cases w.failure? a with
    | none => exact hR.refl w
    | some e => exact hR.refl w
  · intro w
    rw [outcome_access]
    cases hf : w.failure? a with
    | none => exact .ok ()
    | some e =>
      obtain ⟨fault, -, rfl⟩ := Option.map_eq_some_iff.mp hf
      exact .error (hP a fault)

theorem obeys_performAll (hR : World.Lasting R) (hP : ∀ (a : Access) fault, P (a.failure fault)) (acts : List Act) :
    Obeys R P (performAll acts) := by
  unfold performAll
  induction acts with
  | nil => exact obeys_pure hR _
  | cons act acts ih =>
    refine obeys_bind hR ?_ fun _ _ _ _ => ih
    cases act with
    | tell r => exact obeys_tell hR r
    | reach a => exact obeys_access hR hP a

theorem obeys_setPhase (hR : World.Lasting R) (phase : Phase) : Obeys R P (setPhase phase) :=
  obeys_modify fun w => hR.phase w phase

theorem obeys_checkpoint (hR : World.Lasting R) (hP : P .cancelled) (heeds : Bool) :
    Obeys R P (checkpoint heeds) := by
  unfold checkpoint
  refine obeys_bind hR (obeys_modify fun w => hR.meet w .checkpoint) fun _ _ _ _ => ?_
  refine obeys_bind hR (obeys_get hR) fun seen _ _ _ => ?_
  split
  · exact obeys_ofExcept (r := .error .cancelled) hR (.error hP)
  · exact obeys_pure hR ()

theorem obeys_startPass (hR : World.Lasting R) (o : Options) (pass : Nat) : Obeys R P (o.startPass pass) := by
  unfold Options.startPass
  split
  · exact obeys_modify fun w => hR.progress w _ rfl
  · exact obeys_pure hR ()

theorem obeys_record (hR : World.Lasting R) (o : Options) (event : Walk.Event) : Obeys R P (o.record event) := by
  unfold Options.record
  split
  · split
    · exact obeys_modify fun w => hR.progress w _ rfl
    · exact obeys_pure hR ()
  · exact obeys_pure hR ()
  · exact obeys_pure hR ()

/-! ## Files are kept -/

theorem Ends.kept {x : α} (h : Ends m w x w') (hw : w.Unshared)
    (hm : Obeys (fun w w' => w.Unshared → w.Kept w') (fun _ => True) m) : w.Kept w' :=
  hm.of_ends h hw

theorem Ends.kept_tell {r : Record} {u : Unit} (h : Ends (tell r) w u w') (hw : w.Unshared) :
    w.Kept w' :=
  h.kept hw (obeys_tell World.lasting_kept r)

theorem Ends.kept_tellAll {told : List Record} {u : Unit} (h : Ends (Options.tellAll told) w u w')
    (hw : w.Unshared) : w.Kept w' :=
  h.kept hw (obeys_tellAll World.lasting_kept told)

theorem Ends.kept_performAll {acts : List Act} {u : Unit} (h : Ends (performAll acts) w u w') (hw : w.Unshared) :
    w.Kept w' :=
  h.kept hw (obeys_performAll World.lasting_kept (fun _ _ => trivial) acts)

theorem Ends.kept_setPhase {phase : Phase} {u : Unit} (h : Ends (setPhase phase) w u w') :
    w.Kept w' := by
  rw [← ends_modify.mp h]
  exact ⟨rfl, rfl⟩

theorem Ends.kept_startPass {o : Options} {pass : Nat} {u : Unit} (h : Ends (o.startPass pass) w u w')
    (hw : w.Unshared) : w.Kept w' :=
  h.kept hw (obeys_startPass World.lasting_kept o pass)

theorem Ends.kept_record {o : Options} {event : Walk.Event} {u : Unit}
    (h : Ends (o.record event) w u w') (hw : w.Unshared) : w.Kept w' :=
  h.kept hw (obeys_record World.lasting_kept o event)

/-! ## Temporary files -/

/-- If the work fails, the temporary file is removed. If it ends well, it may have moved the file away. -/
theorem outcome_withTemporary (directory suffix : String) (act : Files.Temporary → Session α) (w : World) :
    outcome (withTemporary directory suffix act) w =
      match w.failure? { operation := .create } with
      | some e => (.error e, w)
      | none =>
        match w.files.createTemporary directory suffix w.tags with
        | .error fault => (.error (.io fault), w)
        | .ok (temporary, files) =>
          match outcome (act temporary) { w with files } with
          | (.ok x, w') => (.ok x, w')
          | (.error e, w') => (.error e, { w' with files := w'.files.remove temporary.place }) := by
  unfold withTemporary
  rw [outcome_bind, outcome_access]
  cases w.failure? { operation := .create } with
  | some e => rfl
  | none =>
    change outcome (ofFault (w.files.createTemporary directory suffix w.tags) >>= _) w = _
    rw [outcome_bind]
    cases w.files.createTemporary directory suffix w.tags with
    | error fault => rfl
    | ok made =>
      obtain ⟨temporary, files⟩ := made
      change outcome (tryCatch (act temporary) _) { w with files } = _
      rw [outcome_tryCatch]
      dsimp only
      rcases outcome (act temporary) { w with files } with ⟨e | x, w'⟩
      · rfl
      · rfl

theorem ends_withTemporary {directory suffix : String} {act : Files.Temporary → Session α} {x : α}
    (h : Ends (withTemporary directory suffix act) w x w') :
    ∃ temporary files, w.files.createTemporary directory suffix w.tags = .ok (temporary, files) ∧
      Ends (act temporary) { w with files } x w' := by
  unfold Ends at h
  rw [outcome_withTemporary] at h
  cases hd : w.failure? { operation := .create } with
  | some e => simp [hd] at h
  | none =>
    rcases hc : w.files.createTemporary directory suffix w.tags with fault | ⟨temporary, files⟩
    · simp [hd, hc] at h
    · refine ⟨temporary, files, rfl, ?_⟩
      simp only [hd, hc] at h
      rcases ha : outcome (act temporary) { w with files } with ⟨e | y, w₁⟩
      · simp [ha] at h
      · simp only [ha] at h
        unfold Ends
        rw [ha, h]

theorem obeys_withTemporary {directory suffix : String} {act : Files.Temporary → Session α}
    (hR : World.Lasting R) (hfiles : ∀ w files, R w { w with files })
    (hP : ∀ (a : Access) fault, P (a.failure fault)) (h : ∀ temporary, Obeys R P (act temporary)) :
    Obeys R P (withTemporary directory suffix act) := by
  constructor
  · intro w
    rw [outcome_withTemporary]
    cases w.failure? { operation := .create } with
    | some e => exact hR.refl w
    | none =>
      rcases w.files.createTemporary directory suffix w.tags with fault | ⟨temporary, files⟩
      · exact hR.refl w
      · have hmade := hR.trans (hfiles w files) ((h temporary).moves { w with files })
        dsimp only
        rcases ho : outcome (act temporary) { w with files } with ⟨e | x, w'⟩
        · rw [ho] at hmade
          exact hR.trans hmade (hfiles w' _)
        · rwa [ho] at hmade
  · intro w
    have haccess := (obeys_access (P := P) hR hP { operation := .create }).fails w
    rw [outcome_access] at haccess
    rw [outcome_withTemporary]
    cases hd : w.failure? { operation := .create } with
    | some e =>
      rw [hd] at haccess
      exact .error (haccess e rfl)
    | none =>
      rcases w.files.createTemporary directory suffix w.tags with fault | ⟨temporary, files⟩
      · exact .error (hP { operation := .create } fault)
      · have hf := (h temporary).fails { w with files }
        dsimp only
        rcases ho : outcome (act temporary) { w with files } with ⟨e | x, w'⟩
        · rw [ho] at hf
          exact .error (hf e rfl)
        · exact .ok x

/-! ## The steps of a run -/

variable {o : Options} {input output : String}

/-- A second pass that ends well looks whether it should stop, publishes its output, and does nothing after
that. -/
theorem ends_writeOutput_steps {pool : ClassPool} {a : Assembly} {size : Nat}
    (h : Ends (o.writeOutput input output pool) w (a, size) w') :
    ∃ w₁ temporary files w₂ bytes files',
      Ends (o.startPass 2) w () w₁ ∧
      w₁.files.createTemporary (Files.parent output) "" w₁.tags = .ok (temporary, files) ∧
      Ends (o.walkOver input (Assembly.step pool)
        { plan := .forOutput (Files.fileName output), level := o.level }) { w₁ with files } a w₂ ∧
      (o.watched && (w₂.meet .checkpoint).progress.isCancelled) = false ∧
      a.finish = .ok bytes ∧ size = bytes.length ∧
      (w₂.meet .checkpoint).files.publish temporary bytes output = .ok files' ∧
      w' = { w₂.meet .checkpoint with files := files' } := by
  unfold Options.writeOutput at h
  obtain ⟨_, w₁, hs, h⟩ := ends_bind.mp h
  obtain ⟨temporary, files, hc, h⟩ := ends_withTemporary h
  obtain ⟨a₁, w₂, hwalk, h⟩ := ends_bind.mp h
  obtain ⟨_, w₃, hcheck, h⟩ := ends_bind.mp h
  obtain ⟨hheeds, rfl⟩ := ends_checkpoint.mp hcheck
  obtain ⟨bytes, w₄, hok, h⟩ := ends_bind.mp h
  obtain ⟨hfinish, rfl⟩ := ends_ofExcept.mp hok
  obtain ⟨_, w₄, hreach, h⟩ := ends_bind.mp h
  obtain ⟨-, rfl⟩ := ends_reachAll.mp hreach
  obtain ⟨w₅, w₆, hg, h⟩ := ends_bind.mp h
  obtain ⟨rfl, rfl⟩ := ends_get.mp hg
  obtain ⟨files', w₄, hpub, h⟩ := ends_bind.mp h
  obtain ⟨hpublish, rfl⟩ := ends_ofFault.mp hpub
  obtain ⟨_, w₅, hm, h⟩ := ends_bind.mp h
  obtain rfl := ends_modify.mp hm
  obtain ⟨hresult, rfl⟩ := ends_pure.mp h
  obtain ⟨rfl, rfl⟩ := Prod.mk.inj hresult
  exact ⟨w₁, temporary, files, w₂, bytes, files', hs, hc, hwalk, hheeds, hfinish, rfl, hpublish, rfl⟩

end Session

/-- The world when a run has come to a phase and has told so. -/
def World.reach (w : World) (phase : Phase) (r : Record) : World :=
  { w with phase }.meet (.told r)

theorem World.Lasting.reach {R : World → World → Prop} (hR : World.Lasting R) (w : World) (phase : Phase)
    (r : Record) : R w (w.reach phase r) :=
  hR.trans (hR.phase w phase) (hR.meet _ _)

namespace Session

variable {o : Options} {input output : String} {w w' : World}

theorem ends_setPhase_tell {phase : Phase} {r : Record} {k : Session α} {x : α}
    (h : Ends (do setPhase phase; tell r; k) w x w') : Ends k (w.reach phase r) x w' := by
  obtain ⟨_, w₁, hp, h⟩ := ends_bind.mp h
  obtain rfl := ends_modify.mp hp
  obtain ⟨_, w₂, ht, h⟩ := ends_bind.mp h
  obtain rfl := ends_tell.mp ht
  exact h

/-- A run that ends well is one pass after the other, with its phases told in between. -/
theorem ends_run_steps {report : Report} (h : Ends (o.run input output) w report w') :
    ∃ c w₁ a size w₂,
      Ends (o.collect input) (w.reach .collecting (.collecting input)) c w₁ ∧
      Ends (o.writeOutput input output c.pool)
        ((w₁.meet (.told (.collected c.parsed c.relabelled c.unlabelled))).reach .writing (.writing output))
        (a, size) w₂ ∧
      w' = w₂.reach .closed (.wrote output size a.resources a.containers) ∧
      report = ⟨c.parsed, c.relabelled, c.unlabelled, a.resources, a.containers, size⟩ := by
  have h := ends_setPhase_tell h
  obtain ⟨c, w₁, hcollect, h⟩ := ends_bind.mp h
  obtain ⟨_, w₂, ht, h⟩ := ends_bind.mp h
  obtain rfl := ends_tell.mp ht
  have h := ends_setPhase_tell h
  obtain ⟨⟨a, size⟩, w₂, hwrite, h⟩ := ends_bind.mp h
  have h := ends_setPhase_tell h
  obtain ⟨hreport, rfl⟩ := ends_pure.mp h
  exact ⟨c, w₁, a, size, w₂, hcollect, hwrite, rfl, hreport.symm⟩

end Session
end SourceLabel.Relabel
