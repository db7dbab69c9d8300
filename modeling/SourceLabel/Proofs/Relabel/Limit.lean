import SourceLabel.Proofs.Relabel.Assembled
import SourceLabel.Proofs.Relabel.Calls
import SourceLabel.Proofs.Relabel.Completion
import SourceLabel.Proofs.Zip.Limit

/-!
# What a second pass can still fail with

Once the first pass has ended well, every class can be relabelled and everything else could be read. What
readers have checked suffices for every check of the writers, and the walk enters and leaves containers in
the order that assembling needs. So unless the store of files or the device fails or a stop is asked for, the
second pass fails only where an archive would need wider numbers.
-/
namespace SourceLabel.Relabel

open Walk Tree Result Session

/-! ## What the first pass shows -/

theorem not_error_of_feed {σ : Type} {step : σ → Event → Except Error σ × List Act} {s s' : σ}
    {events : List (Except Error Event)} (h : feed step s events = .ok s') (e : Error) : .error e ∉ events := by
  induction events generalizing s with
  | nil => exact List.not_mem_nil
  | cons event events ih =>
    cases event with
    | error e' => exact nomatch h
    | ok event =>
      obtain ⟨s₁, -, hrest⟩ := feed_cons_eq_ok.mp h
      simpa using ih hrest

variable {policy : Policy} {pool : ClassPool} {level : Deflate.Level} {name : String} {l : Leaf}

/-- An entry of which a class is in the pool has contents that can be packed again. -/
theorem packable_of_pooled {header : Zip.Entry} {raw : Bytes} (hp : Pooled policy pool l)
    (hl : l.payload = .packed header raw) (hc : l.isClass = true) :
    header.method.isSupported = true ∧ header.isDirectory = false := by
  obtain ⟨p, hpatch, -⟩ := hp hc
  obtain ⟨data, -, hdata, -⟩ := parse_of_patch hpatch
  unfold Leaf.contents at hdata
  simp only [hl] at hdata
  refine ⟨Zip.Entry.isSupported_of_unpack (mapError_eq_ok.mp hdata), ?_⟩
  unfold Leaf.isClass at hc
  have hd := (Bool.and_eq_true_iff.mp hc).1
  unfold Leaf.isDirectory Leaf.header? at hd
  simpa [hl] using hd

theorem replacement_eq_ok (hp : Pooled policy pool l) :
    ∃ data?, replacement policy l = .ok data? ∧ (data? ≠ none → l.isClass = true) := by
  by_cases hc : l.isClass = true
  · obtain ⟨unit, -, hr⟩ := replacement_of_pooled hp hc
    exact ⟨_, hr, fun _ => hc⟩
  · unfold replacement
    rw [if_neg hc]
    exact ⟨none, rfl, fun h => absurd rfl h⟩

/-! ## Rebuilding -/

mutual

/-- The call for an entry is one that nothing but the width of numbers speaks against. It may be that there
is none because a container in the entry would need wider numbers. -/
theorem isLimit_call {path : NestedPath} {key : EntryKey} {header : Zip.Entry} :
    (t : Tree) → t.At path key (some header) → t.Sound name → (∀ e, .error e ∉ t.preorder) →
    (∀ l ∈ leaves t.preorder, Pooled policy pool l) →
    FailsWith Error.IsLimit (call policy level t) ∧ ∀ c, call policy level t = .ok c → c.Acceptable
  | .leaf l, hat, hs, _, hp => by
    obtain ⟨raw, hl⟩ := payload_of_header? hat.2.2
    obtain ⟨hread, hlength⟩ := hs header raw hl
    have hpooled := hp l (List.mem_singleton_self l)
    obtain ⟨data?, hr, hclass⟩ := replacement_eq_ok hpooled
    simp only [call, hl, hr]
    cases data? with
    | none =>
      refine ⟨.ok _, fun c hc => ?_⟩
      obtain rfl := Except.ok.inj hc
      exact .copy hread.fits hlength
    | some data =>
      obtain ⟨hmethod, hdirectory⟩ := packable_of_pooled hpooled hl (hclass (Option.some_ne_none data))
      refine ⟨.ok _, fun c hc => ?_⟩
      obtain rfl := Except.ok.inj hc
      exact .add hread.fits hmethod fun hd => nomatch hdirectory.symm.trans hd
  | .container c entries, hat, hs, herror, hp => by
    obtain ⟨⟨-, -, hh⟩, hentries⟩ := hat
    obtain ⟨⟨-, hcomment, hheader⟩, hsound⟩ := hs
    obtain ⟨hread, hmethod, hdirectory⟩ := hheader header hh
    rw [leaves_container] at hp
    have hrest : ∀ e, .error e ∉ preorderAll entries := fun e he =>
      herror e (List.mem_cons_of_mem _ (List.mem_append_left _ he))
    have hinner := isLimit_addAll entries hentries hsound hrest hp
    simp only [call]
    constructor
    · refine (hinner _).bind fun inner hi => ?_
      have hc : inner.comment.length ≤ Zip.Writer.maxFieldLength := by
        rw [comment_of_addAll hi]
        exact hcomment
      refine (Zip.Writer.isLimit_finish hc).bind fun done _ => ?_
      rw [hh]
      exact .ok _
    · intro call hcall
      obtain ⟨inner, -, hcall⟩ := bind_eq_ok.mp hcall
      obtain ⟨done, -, hcall⟩ := bind_eq_ok.mp hcall
      rw [hh] at hcall
      obtain rfl := Except.ok.inj hcall
      exact .add hread.fits hmethod fun hd => nomatch hdirectory.symm.trans hd
  | .broken e, _, _, herror, _ => absurd (List.mem_singleton_self _) (herror e)

/-- The entries of a container are taken unless there are too many or they are too large. -/
theorem isLimit_addAll {path : NestedPath} {key : EntryKey} {index : Nat} :
    (ts : List Tree) → AllAt path key index ts → AllSound name ts → (∀ e, .error e ∉ preorderAll ts) →
    (∀ l ∈ leaves (preorderAll ts), Pooled policy pool l) →
    ∀ w, FailsWith Error.IsLimit (addAll policy level w ts)
  | [], _, _, _, _, w => .ok w
  | t :: ts, hat, hs, herror, hp, w => by
    rw [leaves_cons] at hp
    obtain ⟨⟨header, ht⟩, hts⟩ := hat
    obtain ⟨hcall, hacceptable⟩ := isLimit_call t ht hs.1
      (fun e he => herror e (List.mem_append_left _ he)) (fun l hl => hp l (List.mem_append_left _ hl))
    have hrest := isLimit_addAll ts hts hs.2
      (fun e he => herror e (List.mem_append_right _ he)) (fun l hl => hp l (List.mem_append_right _ hl))
    have hfirst : FailsWith Error.IsLimit (addTree policy level w t) := by
      rw [addTree_eq]
      refine hcall.bind fun c hc => ?_
      have hperform := Zip.Writer.isLimit_perform (hacceptable c hc) w
      rcases hx : c.perform w with ⟨e | ⟨⟩, w'⟩
      · rw [hx] at hperform
        exact .error (hperform e rfl)
      · exact .ok w'
    rw [addAll]
    exact hfirst.bind fun w' _ => hrest w'

end

/-- A file that the first pass has gone through can be rebuilt unless an archive would need wider numbers. -/
theorem isLimit_rebuild (level : Deflate.Level) (t : Tree) (hat : t.At ⟨name, []⟩ [] none) (hs : t.Sound name)
    (herror : ∀ e, .error e ∉ t.preorder) (hp : ∀ l ∈ leaves t.preorder, Pooled policy pool l) :
    FailsWith Error.IsLimit (rebuild policy level t) := by
  cases t with
  | broken e => exact absurd (List.mem_singleton_self _) (herror e)
  | leaf l =>
    obtain ⟨data, hl⟩ := payload_of_header?_none hat.2.2
    obtain ⟨data?, hr, -⟩ := replacement_eq_ok (hp l (List.mem_singleton_self l))
    simp only [rebuild, hl, hr]
    exact .ok _
  | container c entries =>
    obtain ⟨-, hentries⟩ := hat
    obtain ⟨⟨-, hcomment, -⟩, hsound⟩ := hs
    rw [leaves_container] at hp
    have hrest : ∀ e, .error e ∉ preorderAll entries := fun e he =>
      herror e (List.mem_cons_of_mem _ (List.mem_append_left _ he))
    simp only [rebuild]
    refine (isLimit_addAll entries hentries hsound hrest hp _).bind fun w hw => ?_
    have hc : w.comment.length ≤ Zip.Writer.maxFieldLength := by
      rw [comment_of_addAll hw]
      exact hcomment
    exact (Zip.Writer.isLimit_finish hc).bind fun done _ => .ok _

/-! ## The second pass -/

/-- What a second pass to `output` on a device may fail with: some archive would need wider numbers, the store of
files does not take the output, the device fails, or a stop was asked for. -/
inductive Excused (o : Options) (d : Device) (output : String) : Error → Prop
  | limit : Excused o d output (.unsupportedFeature .zip64)
  | limitAt (path : String) : Excused o d output (Error.inContainer path (.unsupportedFeature .zip64))
  | store {fault : IoFault} : Files.Refuses output fault → Excused o d output (.io fault)
  | device {e : Error} : d.Raises e → Excused o d output e
  | stopped : o.watched = true → Excused o d output .cancelled

theorem Excused.of_places {o : Options} {d : Device} {output : String} {e e' : Error} (he : e.IsLimit)
    (h : e.Places e') : Excused o d output e' := by
  rw [Error.IsLimit] at he
  rcases h with rfl | ⟨path, rfl⟩
  · exact he ▸ .limit
  · exact he ▸ .limitAt path

variable {o : Options} {input output : String} {place place' : Place} {b : Bytes} {w w₁ w₂ : World}
  {c : Collection}

/-- The second pass over a file that the first has gone through fails only with what is excused. -/
theorem excused_writeOutput (hw : w.Steady input place b) (hcollect : Ends (o.collect input) w c w₁)
    (hw₂ : w₂.Steady input place' b) :
    FailsWith (Excused o w₂.device output) (outcome (o.writeOutput input output c.pool) w₂).1 := by
  have hfeed := feed_of_ends_collect hw hcollect
  have hsound := ofFile_sound (Files.fileName input) b
  have hat := ofFile_at (Files.fileName input) b
  have hpooled := pooled_of_file hfeed
  have hmatching := matching_file (Files.fileName output) o.level _ hat hsound hpooled
  have hrebuild := isLimit_rebuild o.level _ hat hsound (not_error_of_feed hfeed) hpooled
  -- whether the walk or the end of the assembly fails, rebuilding fails in the same way
  have hassembly : ∀ e, feed (Assembly.step c.pool) { plan := .forOutput (Files.fileName output), level := o.level }
      (ofFile (Files.fileName input) b).preorder >>= Assembly.finish = .error e → Excused o w₂.device output e := by
    intro e he
    obtain ⟨e', he', hplaces⟩ := hmatching.eq_error he
    exact .of_places (hrebuild e' he') hplaces
  intro e he
  rcases fails_writeOutput_steps he with
    ⟨fault, hf, rfl⟩ | hraises | ⟨hwatched, rfl⟩ | ⟨w₃, temporary, files, hs, hc, h⟩
  · exact .store hf
  · exact .device hraises
  · exact .stopped hwatched
  · have hdevice := (obeys_startPass (P := fun _ => True) World.lasting_device o 2).of_ends hs
    have hw₃ := (obeys_startPass (P := fun _ => True) (World.lasting_steady input place' b) o 2).of_ends hs hw₂
    have hwalk := outcome_walkOver o (Assembly.step c.pool)
      { plan := .forOutput (Files.fileName output), level := o.level } (hw₃.createTemporary hc)
    rcases h with h | ⟨a, w₄, h, hfinish⟩
    · rcases hwalk with hcut | hwalk
      · rcases hcut.cancelled_or_raises h with ⟨hwatched, rfl⟩ | hraises
        · exact .stopped hwatched
        · rw [device_walkOver, hdevice] at hraises
          exact .device hraises
      · rw [h] at hwalk
        exact hassembly e (by rw [← hwalk]; rfl)
    · have hfeed := h.of_not_interrupted hwalk
      exact hassembly e (by rw [hfeed]; exact hfinish)

/-- If the first pass over an input ends well and the input stays as it is, the second pass fails only
where an archive would need wider numbers, unless the store of files refuses the output, the device fails or a stop
is asked for. So a run fails in its first pass, or for one of these causes. -/
theorem fails_only_excused (hw : w.Steady input place b) :
    (∀ c w₁ w₂ place', Ends (o.collect input) w c w₁ → w₂.Steady input place' b →
      FailsWith (Excused o w₂.device output) (outcome (o.writeOutput input output c.pool) w₂).1) ∧
    ∀ e, (outcome (o.run input output) w).1 = .error e →
      (outcome (o.collect input) (w.reach .collecting (.collecting input))).1 = .error e ∨
        Excused o w.device output e := by
  constructor
  · intro c w₁ w₂ place' hcollect hw₂
    exact excused_writeOutput hw hcollect hw₂
  · intro e he
    rcases fails_run_steps he with he | ⟨c, w₁, hcollect, he⟩
    · exact .inl he
    · have hR := World.lasting_steady input place b
      have hstart := hR.reach w .collecting (.collecting input) hw
      have hbetween := hR.reach _ .writing (.writing output)
        ((steady_of_ends_collect hstart hcollect).meet (.told (.collected c.parsed c.relabelled c.unlabelled)))
      have hdevice := (obeys_collect (P := fun _ => True) World.lasting_device (fun _ _ => trivial) o input).of_ends
        hcollect
      have hexcused := excused_writeOutput hstart hcollect hbetween e he
      exact .inr (hdevice ▸ hexcused)

/-! ## An output that is refused -/

theorem outcome_writeOutput_of_create {pool : ClassPool} {fault : IoFault}
    (h : w.failure? { operation := .create } = some (.io fault) ∨
      w.failure? { operation := .create } = none ∧
        w.files.createTemporary (Files.parent output) "" w.tags = .error fault) :
    (outcome (o.writeOutput input output pool) w).1 = .error (.io fault) := by
  unfold Options.writeOutput
  rw [outcome_bind_of_ends (x := ()) (ends_startPass.mpr rfl), outcome_withTemporary]
  rcases h with h | ⟨h, hc⟩
  · simp [h]
  · simp [h, hc]

theorem outcome_run_of_create {fault : IoFault} (hw : w.Undisturbed o) (hh : w.files.Holds input place b)
    (hfeed : feed (Collection.step o.policy) {} (ofFile (Files.fileName input) b).preorder = .ok c)
    (hc : w.files.createTemporary (Files.parent output) "" w.tags = .error fault) :
    (outcome (o.run input output) w).1 = .error (.io fault) := by
  have hR := World.lasting_carried o
  have hk₁ := hR.reach w .collecting (.collecting input) hw
  obtain ⟨w₂, hcollect, hk₂⟩ := ends_collect_of_feed hk₁.undisturbed (hk₁.files ▸ hh) hfeed
  have hk₃ := (hk₁.trans hk₂).trans (hR.meet w₂ (.told (.collected c.parsed c.relabelled c.unlabelled)) hk₂.undisturbed)
  have hk₄ := hk₃.trans (hR.reach _ .writing (.writing output) hk₃.undisturbed)
  rw [← hk₄.files, ← hk₄.tags] at hc
  have hfails : (outcome (o.writeOutput input output c.pool) _).1 = .error (.io fault) :=
    outcome_writeOutput_of_create (.inr ⟨hk₄.undisturbed.failure? _, hc⟩)
  have htell : Ends (tell (.collected c.parsed c.relabelled c.unlabelled)) w₂ () _ := ends_tell.mpr rfl
  unfold Options.run
  rw [outcome_setPhase_tell, outcome_bind_of_ends hcollect, outcome_bind_of_ends htell, outcome_setPhase_tell,
    outcome_bind_of_error (Prod.ext hfails rfl)]

def readOnly : Device := fun _ a =>
  if a.operation = .create then some (.other (.other "ReadOnlyFilesystem") "read-only file system") else none

/-- After a first pass that has ended well, the device takes no new files. In another run there is no directory for
the output. -/
theorem fails_only_excused_sampleWorld :
    sampleWorld.Steady "in.zip" ["in.zip"] sampleFile ∧
      (∃ c w₁, Ends (({} : Options).collect "in.zip") sampleWorld c w₁ ∧
        ({ w₁ with device := readOnly } : World).Steady "in.zip" ["in.zip"] sampleFile ∧
        ∃ e, (outcome (({} : Options).writeOutput "in.zip" "once/in.zip" c.pool) { w₁ with device := readOnly }).1 =
            .error e ∧ Excused {} readOnly "once/in.zip" e) ∧
      ∃ e, (outcome (({} : Options).run "in.zip" "no/in.zip") sampleWorld).1 = .error e ∧
        ((outcome (({} : Options).collect "in.zip")
            (sampleWorld.reach .collecting (.collecting "in.zip"))).1 = .error e ∨
          Excused {} sampleWorld.device "no/in.zip" e) := by
  have hw := undisturbed_quietWorld {} (archiveFiles sampleFile)
  have hsteady := hw.unshared.steady holds_sampleWorld
  have hname : Files.fileName "in.zip" = "in.zip" := by decide +kernel
  obtain ⟨c, hfeed⟩ := exists_feed_sampleFile
  rw [← hname] at hfeed
  obtain ⟨w₁, hcollect, hcarried⟩ := ends_collect_of_feed hw holds_sampleWorld hfeed
  have hsteady₁ : ({ w₁ with device := readOnly } : World).Steady "in.zip" ["in.zip"] sampleFile :=
    World.Unshared.steady hcarried.undisturbed.unshared (hcarried.files ▸ holds_sampleWorld)
  have hfails : (outcome (({} : Options).writeOutput "in.zip" "once/in.zip" c.pool)
      { w₁ with device := readOnly }).1 = .error (.io (.other (.other "ReadOnlyFilesystem") "read-only file system")) :=
    outcome_writeOutput_of_create (.inl rfl)
  have hmissing : sampleWorld.files.createTemporary (Files.parent "no/in.zip") "" sampleWorld.tags =
      .error (.atPath "/no/.sourcefile-fixer-000000" .noSuchFile) := by decide +kernel
  have hfails' := outcome_run_of_create hw holds_sampleWorld hfeed hmissing
  exact ⟨hsteady, ⟨c, w₁, hcollect, hsteady₁, _, hfails,
    (fails_only_excused hsteady).1 c w₁ _ _ hcollect hsteady₁ _ hfails⟩, _, hfails',
    (fails_only_excused hsteady).2 _ hfails'⟩

end SourceLabel.Relabel
