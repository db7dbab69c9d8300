import SourceLabel.Proofs.Files.Store
import SourceLabel.Proofs.Relabel.Session
import SourceLabel.Proofs.Walk.Opened
import SourceLabel.Proofs.Walk.Preorder

/-!
# A pass is a fold over the traversal

A pass goes over a file event by event, by a walk that reads the file again at each step. If nobody else
writes to files and the pass ends well, its result is what its step function makes of the pre-order
traversal of the tree of the file. However a pass ends, and whatever others do meanwhile, its step function
meets only events that the plan for the file makes possible.
-/
namespace SourceLabel.Relabel

open Session Result

/-- What `step` makes of events from left to right. A failure ends it. -/
def feed (step : σ → Walk.Event → Except Error σ × List Act) (s : σ) :
    List (Except Error Walk.Event) → Except Error σ
  | [] => .ok s
  | .error e :: _ => .error e
  | .ok event :: rest =>
    match (step s event).1 with
    | .error e => .error e
    | .ok s => feed step s rest

variable {σ : Type} {step : σ → Walk.Event → Except Error σ × List Act} {s s' : σ} {w w' : World}

theorem feed_cons_eq_ok {event : Walk.Event} {rest : List (Except Error Walk.Event)} :
    feed step s (.ok event :: rest) = .ok s' ↔ ∃ s₁, (step s event).1 = .ok s₁ ∧ feed step s₁ rest = .ok s' := by
  rw [feed]
  cases (step s event).1 with
  | error e => simp
  | ok s₁ => simp

theorem feed_append_eq_ok {xs ys : List (Except Error Walk.Event)} :
    feed step s (xs ++ ys) = .ok s' ↔ ∃ s₁, feed step s xs = .ok s₁ ∧ feed step s₁ ys = .ok s' := by
  induction xs generalizing s with
  | nil => simp [feed]
  | cons x xs ih =>
    cases x with
    | error e => simp [feed]
    | ok event =>
      rw [List.cons_append, feed_cons_eq_ok]
      constructor
      · intro ⟨s₁, hs, h⟩
        obtain ⟨s₂, hx, hy⟩ := ih.mp h
        exact ⟨s₂, feed_cons_eq_ok.mpr ⟨s₁, hs, hx⟩, hy⟩
      · intro ⟨s₂, hx, hy⟩
        obtain ⟨s₁, hs, hx⟩ := feed_cons_eq_ok.mp hx
        exact ⟨s₁, hs, ih.mpr ⟨s₂, hx, hy⟩⟩

/-- A walk goes on over the file, unless the device fails to read from it. -/
theorem goOn_cases (w : World) (place : Place) (walk : Walk) :
    w.goOn place walk = walk.next (w.files.contents place) ∨
      ∃ (a : Access) (fault : IoFault), w.device w.moments a = some fault ∧
        w.goOn place walk = { result := some (.error (a.failure fault)), walk } := by
  unfold World.goOn
  split
  · next e he =>
    obtain ⟨path, -, hfailure⟩ := Option.bind_eq_some_iff.mp he
    obtain ⟨fault, hfault, rfl⟩ := Option.map_eq_some_iff.mp hfailure
    exact .inr ⟨_, fault, hfault, rfl⟩
  · exact .inl rfl

/-- A turn of the loop that ends well found the walk at its end, or one event that the step took after the run was
not stopped. -/
theorem ends_sweep_succ {o : Options} {place : Place} {fuel : Nat} {walk : Walk} {b : Bytes}
    (hb : w.files.contents place = b) (h : Ends (o.sweep place step (fuel + 1) walk s) w s' w') :
    ∃ w₁, Ends (Options.tellAll (walk.next b).told) w () w₁ ∧
      ((walk.next b).result = none ∧ s = s' ∧ w₁ = w' ∨
        ∃ event s₁ w₂ w₃, (walk.next b).result = some (.ok event) ∧
          (o.watched && (w₁.meet .checkpoint).progress.isCancelled) = false ∧
          Ends (o.record event) (w₁.meet .checkpoint) () w₂ ∧ Ends (performAll (step s event).2) w₂ () w₃ ∧
          (step s event).1 = .ok s₁ ∧ Ends (o.sweep place step fuel (walk.next b).walk s₁) w₃ s' w') := by
  subst hb
  unfold Options.sweep at h
  obtain ⟨w₀, w₁, hg, h⟩ := ends_bind.mp h
  obtain ⟨rfl, rfl⟩ := ends_get.mp hg
  dsimp only at h
  rcases goOn_cases w place walk with hgo | ⟨a, fault, -, hgo⟩
  · rw [hgo] at h
    obtain ⟨_, w₁, ht, h⟩ := ends_bind.mp h
    refine ⟨w₁, ht, ?_⟩
    split at h
    · next hr =>
      obtain ⟨hs, hw⟩ := ends_pure.mp h
      exact .inl ⟨hr, hs, hw⟩
    · next result hr =>
      obtain ⟨_, w₂, hc, h⟩ := ends_bind.mp h
      obtain ⟨hheeds, rfl⟩ := ends_checkpoint.mp hc
      obtain ⟨event, w₃, he, h⟩ := ends_bind.mp h
      obtain ⟨rfl, rfl⟩ := ends_ofExcept.mp he
      obtain ⟨_, w₂, hrec, h⟩ := ends_bind.mp h
      obtain ⟨_, w₃, ht', h⟩ := ends_bind.mp h
      obtain ⟨s₁, w₄, hs, h⟩ := ends_bind.mp h
      obtain ⟨hstep, rfl⟩ := ends_ofExcept.mp hs
      exact .inr ⟨event, s₁, w₂, w₃, hr, hheeds, hrec, ht', hstep, h⟩
  · -- a walk that the device fails in ends with that failure
    rw [hgo] at h
    obtain ⟨_, w₁, -, h⟩ := ends_bind.mp h
    obtain ⟨_, w₂, -, h⟩ := ends_bind.mp h
    obtain ⟨event, w₃, he, -⟩ := ends_bind.mp h
    exact nomatch (ends_ofExcept.mp he).1

/-- The loop of a pass. Fuel above the potential of the walk is never used up. -/
theorem ends_sweep {o : Options} {place : Place} {fuel : Nat} {walk : Walk}
    (h : Ends (o.sweep place step fuel walk s) w s' w') (hw : w.Unshared) (hf : walk.potential < fuel)
    (hd : walk.isDone = false) :
    feed step s (walk.remaining (w.files.contents place)) = .ok s' ∧ w.Kept w' := by
  induction fuel generalizing walk s w with
  | zero => exact absurd hf (Nat.not_lt_zero _)
  | succ fuel ih =>
    have hn := Walk.next_remaining walk (w.files.contents place) hd
    obtain ⟨w₁, ht, hturn⟩ := ends_sweep_succ rfl h
    have hk₁ := ht.kept_tellAll hw
    rcases hturn with ⟨hr, rfl, rfl⟩ | ⟨event, s₁, w₂, w₃, hr, -, hrec, ht', hstep, h⟩
    · rw [hr] at hn
      exact ⟨by rw [hn]; rfl, hk₁⟩
    · have hk₂ := hk₁.trans (World.kept_meet (hk₁.unshared hw) .checkpoint)
      have hk₃ := hk₂.trans (hrec.kept_record (hk₂.unshared hw))
      have hk₄ := hk₃.trans (ht'.kept_performAll (hk₃.unshared hw))
      rw [hr] at hn
      have hlt := Walk.next_potential_lt hr
      obtain ⟨hfeed, hk₅⟩ := ih h (hk₄.unshared hw) (by omega) hn.2
      rw [hk₄.files] at hfeed
      exact ⟨by rw [hn.1]; exact feed_cons_eq_ok.mpr ⟨s₁, hstep, hfeed⟩, hk₄.trans hk₅⟩

/-- A pass that ends well opened the file at `input`, began a walk over it and went through the loop. -/
theorem ends_walkOver_steps {o : Options} {input : String} (h : Ends (o.walkOver input step s) w s' w') :
    ∃ place walk told w₁, w.files.openFile input = .ok place ∧
      Walk.start (Files.fileName input) (w.files.contents place) = .ok (walk, told) ∧
      Ends (Options.tellAll told) w () w₁ ∧ Ends (o.sweep place step (walk.potential + 1) walk s) w₁ s' w' := by
  unfold Options.walkOver at h
  obtain ⟨_, w₁, haccess, h⟩ := ends_bind.mp h
  obtain ⟨-, rfl⟩ := ends_access.mp haccess
  obtain ⟨w₀, w₁, hg, h⟩ := ends_bind.mp h
  obtain ⟨rfl, rfl⟩ := ends_get.mp hg
  obtain ⟨place, w₁, ho, h⟩ := ends_bind.mp h
  obtain ⟨hopen, rfl⟩ := ends_ofFault.mp ho
  obtain ⟨_, w₁, haccess, h⟩ := ends_bind.mp h
  obtain ⟨-, rfl⟩ := ends_access.mp haccess
  obtain ⟨⟨walk, told⟩, w₁, hs, h⟩ := ends_bind.mp h
  obtain ⟨hstart, rfl⟩ := ends_ofExcept.mp hs
  obtain ⟨_, w₁, ht, h⟩ := ends_bind.mp h
  exact ⟨place, walk, told, w₁, hopen, hstart, ht, h⟩

/-- A whole pass over the file at `input`. -/
theorem ends_walkOver {o : Options} {input : String} (h : Ends (o.walkOver input step s) w s' w')
    (hw : w.Unshared) :
    ∃ place, w.files.openFile input = .ok place ∧
      feed step s (Walk.Tree.ofFile (Files.fileName input) (w.files.contents place)).preorder = .ok s' ∧
      w.Kept w' := by
  obtain ⟨place, walk, told, w₁, hopen, hstart, ht, h⟩ := ends_walkOver_steps h
  have hk := ht.kept_tellAll hw
  have hr := Walk.remaining_of_start hstart
  obtain ⟨hfeed, hk'⟩ := ends_sweep h (hk.unshared hw) (Nat.lt_succ_self _) hr.1
  rw [hk.files, hr.2] at hfeed
  exact ⟨place, hopen, hfeed, hk.trans hk'⟩

/-! ## However a pass ends -/

/-- A failure that can be laid to the input, to the files and the device they are on, or to a request to stop. -/
inductive Ordinary : Error → Prop
  | io (fault : IoFault) : Ordinary (.io fault)
  | container (path reason : String) : Ordinary (.malformedContainer path reason)
  | classFile (path : String) (cause : ClassError) : Ordinary (.malformedClass path cause)
  | cancelled : Ordinary .cancelled

theorem Ordinary.of_malformed {e : Error} (h : Walk.Malformed e) : Ordinary e := by
  obtain ⟨path, reason, rfl⟩ := h
  exact .container path reason

theorem Ordinary.of_device (a : Access) (fault : IoFault) : Ordinary (a.failure fault) := by
  unfold Access.failure
  split
  · exact .io fault
  · unfold Error.inContainer
    dsimp only
    split
    · exact .container _ _
    · exact .io fault

/-- Whatever a walk over a file of this name yields, the step takes it and keeps `I`, or fails with `P`. -/
structure Takes (name : String) (I : σ → Prop) (P : Error → Prop)
    (step : σ → Walk.Event → Except Error σ × List Act) : Prop where
  fails : ∀ s event, I s → event.Possible name → FailsWith P (step s event).1
  keeps : ∀ s event s', I s → event.Possible name → (step s event).1 = .ok s' → I s'

theorem takes_true (name : String) (step : σ → Walk.Event → Except Error σ × List Act) :
    Takes name (fun _ => True) (fun _ => True) step :=
  ⟨fun _ _ _ _ _ _ => trivial, fun _ _ _ _ _ _ => trivial⟩

variable {R : World → World → Prop} {P : Error → Prop} {I : σ → Prop}

/-- The file may be another one by now, and the device may fail, and still the walk keeps within its plan. -/
theorem within_goOn {name : String} {walk : Walk} (hw : walk.Within name) (w : World) (place : Place) :
    (w.goOn place walk).walk.Within name ∧
      ∀ event, (w.goOn place walk).result = some (.ok event) → event.Possible name := by
  rcases goOn_cases w place walk with hgo | ⟨a, fault, -, hgo⟩
  · rw [hgo]
    exact hw.next (w.files.contents place)
  · rw [hgo]
    exact ⟨hw, fun event he => nomatch he⟩

theorem failsWith_goOn {walk : Walk} {place : Place} {result : Except Error Walk.Event}
    (h : (w.goOn place walk).result = some result) : FailsWith Ordinary result := by
  rintro e rfl
  rcases goOn_cases w place walk with hgo | ⟨a, fault, -, hgo⟩
  · rw [hgo] at h
    exact .of_malformed (Walk.malformed_of_next h)
  · rw [hgo] at h
    obtain rfl := Except.error.inj (Option.some.inj h)
    exact .of_device a fault

theorem obeys_sweep {o : Options} {name : String} {place : Place} {fuel : Nat} {walk : Walk}
    (hR : World.Lasting R) (hP : ∀ e, Ordinary e → P e) (ht : Takes name I P step) (hw : walk.Within name)
    (hs : I s) : Obeys R P (o.sweep place step fuel walk s) := by
  have hdevice : ∀ (a : Access) fault, P (a.failure fault) := fun a fault => hP _ (.of_device a fault)
  induction fuel generalizing walk s with
  | zero => exact obeys_pure hR s
  | succ fuel ih =>
    unfold Options.sweep
    refine obeys_bind hR (obeys_get hR) fun seen _ _ _ => ?_
    obtain ⟨hnext, hpossible⟩ := within_goOn hw seen place
    refine obeys_bind hR (obeys_tellAll hR _) fun _ _ _ _ => ?_
    split
    · exact obeys_pure hR s
    · next result hr =>
      have hresult : FailsWith P result := fun e he => hP e (failsWith_goOn hr e he)
      refine obeys_bind hR (obeys_checkpoint hR (hP _ .cancelled) _) fun _ _ _ _ => ?_
      refine obeys_bind hR (obeys_ofExcept hR hresult) fun event _ _ he => ?_
      obtain ⟨rfl, -⟩ := ends_ofExcept.mp he
      have hevent := hpossible event hr
      refine obeys_bind hR (obeys_record hR o event) fun _ _ _ _ => ?_
      refine obeys_bind hR (obeys_performAll hR hdevice _) fun _ _ _ _ => ?_
      refine obeys_bind hR (obeys_ofExcept hR (ht.fails s event hs hevent)) fun s₁ _ _ hs₁ => ?_
      obtain ⟨hstep, -⟩ := ends_ofExcept.mp hs₁
      exact ih hnext (ht.keeps s event s₁ hs hevent hstep)

theorem obeys_walkOver {o : Options} {input : String} (hR : World.Lasting R) (hP : ∀ e, Ordinary e → P e)
    (ht : Takes (Files.fileName input) I P step) (hs : I s) : Obeys R P (o.walkOver input step s) := by
  have hdevice : ∀ (a : Access) fault, P (a.failure fault) := fun a fault => hP _ (.of_device a fault)
  unfold Options.walkOver
  refine obeys_bind hR (obeys_access hR hdevice _) fun _ _ _ _ => ?_
  refine obeys_bind hR (obeys_get hR) fun _ _ _ _ => ?_
  refine obeys_bind hR (obeys_ofFault hR fun fault => hP _ (.io fault)) fun place _ _ _ => ?_
  refine obeys_bind hR (obeys_access hR hdevice _) fun _ _ _ _ => ?_
  have hstart : ∀ file, FailsWith P (Walk.start (Files.fileName input) file) :=
    fun file e he => hP e (.of_malformed (Walk.failsWith_start _ _ e he))
  refine obeys_bind hR (obeys_ofExcept hR (hstart _)) fun started _ _ hw => ?_
  obtain ⟨hw, -⟩ := ends_ofExcept.mp hw
  refine obeys_bind hR (obeys_tellAll hR _) fun _ _ _ _ => ?_
  exact obeys_sweep hR hP ht (Walk.within_of_start hw) hs

end SourceLabel.Relabel
