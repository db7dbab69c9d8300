import SourceLabel.Proofs.Files.Copies
import SourceLabel.Proofs.Relabel.Completion
import SourceLabel.Proofs.Relabel.Publication
import SourceLabel.Proofs.Relabel.Tally

/-!
# What a run reports

A run that ends well reports the tree of its input: the report has the counts of both passes, and a handle that
was watched has counted the entries of the second one. Others may ask for a stop meanwhile and write to other
files; neither changes a count.
-/
namespace SourceLabel

open Walk

/-! ## Counts of a handle -/

/-- From one state of a handle to another, these entries are counted. -/
structure Progress.Counts (p p' : Progress) (ls : List Leaf) : Prop where
  pass : p'.pass = p.pass
  entries : p'.entries = p.entries + UInt64.ofNat ls.length
  bytes : p'.bytes = p.bytes + UInt64.ofNat (ls.map Leaf.size).sum

namespace Progress

variable {p p' p'' : Progress} {ls ls' : List Leaf}

theorem Counts.of_eq (hpass : p'.pass = p.pass) (hentries : p'.entries = p.entries) (hbytes : p'.bytes = p.bytes) :
    p.Counts p' [] :=
  ⟨hpass, hentries.trans (UInt64.add_zero _).symm, hbytes.trans (UInt64.add_zero _).symm⟩

theorem Counts.append (h : p.Counts p' ls) (h' : p'.Counts p'' ls') : p.Counts p'' (ls ++ ls') := by
  constructor
  · exact h'.pass.trans h.pass
  · rw [h'.entries, h.entries, List.length_append, UInt64.ofNat_add, UInt64.add_assoc]
  · rw [h'.bytes, h.bytes, List.map_append, List.sum_append, UInt64.ofNat_add, UInt64.add_assoc]

theorem counts_record (p : Progress) (l : Leaf) : p.Counts (p.record l.size) [l] :=
  ⟨rfl, rfl, rfl⟩

end Progress

namespace Relabel

open Session Result Tree

variable {σ : Type} {step : σ → Event → Except Error σ × List Act} {s s' : σ} {o : Options} {w w' : World}
  {path : String} {place : Place} {b : Bytes}

theorem counts_meet (w : World) (m : Moment) : w.progress.Counts (w.meet m).progress [] := by
  unfold World.meet
  dsimp only
  split
  · exact .of_eq rfl rfl rfl
  · exact .of_eq rfl rfl rfl

theorem tellAll_eq (told : List Record) : Options.tellAll told = performAll (told.map .tell) := by
  unfold Options.tellAll performAll
  induction told with
  | nil => rfl
  | cons r told ih => exact congrArg (fun rest => do tell r; rest) ih

theorem counts_performAll {acts : List Act} {u : Unit} (h : Ends (performAll acts) w u w') :
    w.progress.Counts w'.progress [] := by
  unfold performAll at h
  induction acts generalizing w with
  | nil =>
    obtain ⟨-, rfl⟩ := ends_pure.mp h
    exact .of_eq rfl rfl rfl
  | cons act acts ih =>
    obtain ⟨_, w₁, hfirst, h⟩ := ends_bind.mp h
    cases act with
    | tell r =>
      obtain rfl := ends_tell.mp hfirst
      exact (counts_meet w (.told r)).append (ih h)
    | reach a =>
      obtain ⟨-, rfl⟩ := ends_access.mp hfirst
      exact ih h

theorem counts_tellAll {told : List Record} {u : Unit} (h : Ends (Options.tellAll told) w u w') :
    w.progress.Counts w'.progress [] :=
  counts_performAll (tellAll_eq told ▸ h)

theorem counts_recorded (ho : o.watched = true) {event : Event} {u : Unit} (h : Ends (o.record event) w u w') :
    w.progress.Counts w'.progress (leaves [.ok event]) := by
  cases event with
  | enter c | leave c =>
    obtain ⟨-, rfl⟩ := ends_pure.mp h
    exact .of_eq rfl rfl rfl
  | leaf l =>
    simp only [Options.record, ho, if_true] at h
    obtain rfl := ends_modify.mp h
    exact Progress.counts_record _ l

theorem counts_sweep (ho : o.watched = true) {fuel : Nat} {walk : Walk} (hw : w.Steady path place b)
    (hf : walk.potential < fuel) (hd : walk.isDone = false) (h : Ends (o.sweep place step fuel walk s) w s' w') :
    w.progress.Counts w'.progress (leaves (walk.remaining b)) := by
  have hR := World.lasting_steady path place b
  induction fuel generalizing walk s w with
  | zero => exact absurd hf (Nat.not_lt_zero _)
  | succ fuel ih =>
    have hn := Walk.next_remaining walk b hd
    obtain ⟨w₁, ht, hturn⟩ := ends_sweep_succ hw.holds.contents h
    have hw₁ := (obeys_tellAll (P := fun _ => True) hR _).of_ends ht hw
    have hp₁ := counts_tellAll ht
    rcases hturn with ⟨hr, rfl, rfl⟩ | ⟨event, s₁, w₂, w₃, hr, -, hrec, ht', -, h⟩
    · rw [hr] at hn
      rw [hn]
      exact hp₁
    · have hw₂ := (obeys_record (P := fun _ => True) hR o event).of_ends hrec (hw₁.meet .checkpoint)
      have hw₃ := (obeys_performAll (P := fun _ => True) hR (fun _ _ => trivial) _).of_ends ht' hw₂
      have hp₂ := (hp₁.append (counts_meet w₁ .checkpoint)).append (counts_recorded ho hrec)
      have hp₃ := hp₂.append (counts_performAll ht')
      rw [List.append_nil] at hp₃
      rw [hr] at hn
      have hlt := Walk.next_potential_lt hr
      rw [hn.1, leaves_split]
      exact hp₃.append (ih hw₃ (by omega) hn.2 h)

theorem counts_walkOver (ho : o.watched = true) (hw : w.Steady path place b)
    (h : Ends (o.walkOver path step s) w s' w') :
    w.progress.Counts w'.progress (leaves (ofFile (Files.fileName path) b).preorder) := by
  obtain ⟨place', walk, told, w₁, hopen, hstart, ht, h⟩ := ends_walkOver_steps h
  obtain rfl : place = place' := Except.ok.inj (hw.holds.openFile.symm.trans hopen)
  rw [hw.holds.contents] at hstart
  have hw₁ := (obeys_tellAll (P := fun _ => True) (World.lasting_steady path place b) _).of_ends ht hw
  have hr := Walk.remaining_of_start hstart
  rw [← hr.2]
  exact (counts_tellAll ht).append (counts_sweep ho hw₁ (Nat.lt_succ_self _) hr.1 h)

/-! ## How many entries there can be -/

theorem length_leaves_le {events : List (Except Error Event)} (h : feed step s events = .ok s') :
    (leaves events).length ≤ (untilFailure events).1.length := by
  induction events generalizing s with
  | nil => exact Nat.le_refl _
  | cons event events ih =>
    cases event with
    | error e => exact nomatch h
    | ok event =>
      obtain ⟨s₁, -, hrest⟩ := feed_cons_eq_ok.mp h
      have hle := ih hrest
      have hone : (leaves [.ok event]).length ≤ 1 := List.length_filterMap_le _ _
      rw [leaves_split, List.length_append, untilFailure, List.length_cons]
      omega

/-- A file that can be gone over has so few entries that counting them does not wrap around. -/
theorem length_leaves_lt {name : String} (h : feed step s (ofFile name b).preorder = .ok s') :
    (leaves (ofFile name b).preorder).length < 2 ^ 64 := by
  cases hstart : Walk.start name b with
  | error e =>
    rw [Walk.preorder_of_start hstart] at h
    exact nomatch h
  | ok started =>
    obtain ⟨walk, told⟩ := started
    obtain ⟨hdone, hremaining⟩ := Walk.remaining_of_start hstart
    have hyields := (Walk.yields_of_remaining b hdone).length_le
    rw [hremaining] at hyields
    have hle := length_leaves_le h
    have hlt := Walk.potential_lt_of_start hstart
    have hsmall : entryPotential 3 < 2 ^ 64 := by decide
    omega

/-! ## Reports -/

/-- The report has the counts of the tree. -/
structure Report.Counts (policy : Policy) (t : Tree) (report : Report) : Prop where
  parsed : report.parsed = (leaves t.preorder).countP Leaf.isClass
  relabelled : report.relabelled = (leaves t.preorder).countP (Leaf.isMislabelled policy)
  unlabelled : report.unlabelled = (leaves t.preorder).countP Leaf.isUnlabelled
  resources : report.resources = resourceCount t.preorder
  containers : report.containers = t.nestedContainers

theorem Report.Counts.length_leaves {policy : Policy} {t : Tree} {report : Report} (h : report.Counts policy t) :
    (leaves t.preorder).length = report.parsed + report.resources := by
  rw [h.parsed, h.resources, resourceCount, List.length_eq_countP_add_countP Leaf.isClass]
  congr 2
  funext l
  cases l.isClass <;> rfl

variable {input output : String} {report : Report} {bytes : Bytes}

/-- What is made of a file is the file rebuilt, and a report that has the counts of its tree. -/
theorem counts_of_make {name outputName : String} (h : o.make name outputName b = .ok (report, bytes)) :
    report.Counts o.policy (ofFile name b) ∧ rebuild o.policy o.level (ofFile name b) = .ok bytes ∧
      report.bytes = bytes.length := by
  obtain ⟨c, a, hc, ha, hfinish, rfl⟩ := Options.make_eq_ok.mp h
  have hfirst := counts_of_feed hc
  obtain ⟨hresources, hcontainers⟩ := counts_file _ (ofFile_at name b) ha
  refine ⟨⟨?_, ?_, ?_, hresources, hcontainers⟩, ?_, rfl⟩
  · exact hfirst.parsed.trans (Nat.zero_add _)
  · exact hfirst.relabelled.trans (Nat.zero_add _)
  · exact hfirst.unlabelled.trans (Nat.zero_add _)
  · exact rebuild_of_feed _ (ofFile_at name b) (pooled_of_file hc) ha hfinish

/-- A second pass that ends well has assembled its input, and counted the entries if it was watched. -/
theorem steps_of_ends_writeOutput {pool : ClassPool} {a : Assembly} {size : Nat} (hw : w.Steady input place b)
    (h : Ends (o.writeOutput input output pool) w (a, size) w') :
    (∃ bytes, feed (Assembly.step pool) { plan := .forOutput (Files.fileName output), level := o.level }
        (ofFile (Files.fileName input) b).preorder = .ok a ∧ a.finish = .ok bytes ∧ size = bytes.length) ∧
      (o.watched = true →
        ({ pass := 2 } : Progress).Counts w'.progress (leaves (ofFile (Files.fileName input) b).preorder)) := by
  obtain ⟨w₁, temporary, files, w₂, bytes, files', hs, hc, hwalk, -, hfinish, hsize, -, rfl⟩ := ends_writeOutput_steps h
  have hw₁ := (obeys_startPass (P := fun _ => True) (World.lasting_steady input place b) o 2).of_ends hs hw
  have hw₂ := hw₁.createTemporary hc
  refine ⟨⟨bytes, feed_of_ends_walkOver hw₂ hwalk, hfinish, hsize⟩, fun ho => ?_⟩
  obtain rfl := ends_startPass.mp hs
  have hcounts := (counts_walkOver ho hw₂ hwalk).append (counts_meet w₂ .checkpoint)
  simp only [ho, if_true, List.append_nil] at hcounts
  exact ⟨hcounts.pass, hcounts.entries, hcounts.bytes⟩

/-- A run that ends well ends with what it makes of its input, and has counted the entries of the second pass if it
was watched. -/
theorem make_of_ends_run (hw : w.Steady input place b) (h : Ends (o.run input output) w report w') :
    (∃ bytes, o.make (Files.fileName input) (Files.fileName output) b = .ok (report, bytes)) ∧
      (o.watched = true →
        ({ pass := 2 } : Progress).Counts w'.progress (leaves (ofFile (Files.fileName input) b).preorder)) := by
  have hR := World.lasting_steady input place b
  obtain ⟨c, w₁, a, size, w₂, hcollect, hwrite, rfl, rfl⟩ := ends_run_steps h
  have hw₁ := hR.reach w .collecting (.collecting input) hw
  have hfeed := feed_of_ends_collect hw₁ hcollect
  have hw₂ := hR.meet w₁ (.told (.collected c.parsed c.relabelled c.unlabelled)) (steady_of_ends_collect hw₁ hcollect)
  have hw₃ := hR.reach _ .writing (.writing output) hw₂
  obtain ⟨⟨bytes, ha, hfinish, rfl⟩, hcounts⟩ := steps_of_ends_writeOutput hw₃ hwrite
  refine ⟨⟨bytes, Options.make_eq_ok.mpr ⟨c, a, hfeed, ha, hfinish, rfl⟩⟩, fun ho => ?_⟩
  have hlast := (hcounts ho).append
    (counts_meet { w₂ with phase := .closed } (.told (.wrote output bytes.length a.resources a.containers)))
  rwa [List.append_nil] at hlast

/-- What a run with these options tells of the tree of its input: in its report the counts of the tree and the size of
the file rebuilt, and through a watched handle the number of leaves, and the sum of their sizes up to where the
count of bytes wraps around. -/
structure Reported (o : Options) (t : Tree) (report : Report) (p : Progress) : Prop where
  counts : report.Counts o.policy t
  size : ∃ bytes, rebuild o.policy o.level t = .ok bytes ∧ report.bytes = bytes.length
  pass : o.watched = true → p.pass = 2
  entries : o.watched = true → p.entries.toNat = report.parsed + report.resources
  bytes : o.watched = true → p.bytes.toNat = ((leaves t.preorder).map Leaf.size).sum % 2 ^ 64

theorem reported_of_ends_run (hw : w.Steady input place b) (h : Ends (o.run input output) w report w') :
    Reported o (ofFile (Files.fileName input) b) report w'.progress := by
  obtain ⟨⟨bytes, hmake⟩, hprogress⟩ := make_of_ends_run hw h
  obtain ⟨hcounts, hrebuild, hbytes⟩ := counts_of_make hmake
  refine ⟨hcounts, ⟨bytes, hrebuild, hbytes⟩, fun ho => (hprogress ho).pass, fun ho => ?_, fun ho => ?_⟩
  · obtain ⟨c, -, hc, -⟩ := Options.make_eq_ok.mp hmake
    rw [(hprogress ho).entries, ← hcounts.length_leaves]
    exact (congrArg UInt64.toNat (UInt64.zero_add _)).trans (UInt64.toNat_ofNat_of_lt' (length_leaves_lt hc))
  · rw [(hprogress ho).bytes]
    exact (congrArg UInt64.toNat (UInt64.zero_add _)).trans UInt64.toNat_ofNat'

/-- The copy is the input of a run in the place of a file. -/
theorem reported_of_ends_runInPlace (hw : w.Unshared) (hh : w.files.Holds path place b)
    (h : Ends (o.runInPlace path) w report w') :
    ∃ copy files, w.files.createTemporary (Files.parent path) (Files.extension path) w.tags = .ok (copy, files) ∧
      Reported o (ofFile (Files.fileName copy.path) b) report w'.progress := by
  obtain ⟨copy, files, hc, h⟩ := ends_withTemporary h
  obtain ⟨_, w₁, hcopied, h⟩ := ends_bind.mp h
  obtain ⟨place', b', hopen, hcontents, rfl⟩ := ends_copyInto hcopied
  have hh' := hh.createTemporary hc
  obtain rfl : place = place' := Except.ok.inj (hh'.openFile.symm.trans hopen)
  obtain rfl : b' = b := hcontents.symm.trans hh'.contents
  obtain ⟨_, w₂, ht, h⟩ := ends_bind.mp h
  obtain rfl := ends_tell.mp ht
  obtain ⟨report', w₃, hrun, h⟩ := ends_bind.mp h
  obtain ⟨_, w₄, haccess, h⟩ := ends_bind.mp h
  obtain ⟨-, rfl⟩ := ends_access.mp haccess
  obtain ⟨_, w₄, hremove, h⟩ := ends_bind.mp h
  obtain rfl := ends_modify.mp hremove
  obtain ⟨rfl, rfl⟩ := ends_pure.mp h
  refine ⟨copy, files, hc, ?_⟩
  obtain ⟨hopenCopy, hcontentsCopy⟩ := Files.openFile_temporary hc b'
  obtain ⟨hn, rfl⟩ := Files.createTemporary_eq_ok hc
  rw [Files.set_set_of_node? hn] at hrun
  have hw₁ : World.Unshared { w with files := w.files.set copy.place (.file b') } := hw
  have hreported := reported_of_ends_run ((hw₁.steady ⟨hopenCopy, hcontentsCopy⟩).meet _) hrun
  exact hreported

/-- A run that ends well reports the tree of its input, whatever others ask meanwhile and wherever else they write.
If they write nowhere, the output path leads to a file of the size reported. -/
theorem run_reports (hw : w.Steady input place b) (h : Ends (o.run input output) w report w') :
    Reported o (ofFile (Files.fileName input) b) report w'.progress ∧
      (w.Unshared → ∃ target bytes, w'.files.Holds output target bytes ∧ report.bytes = bytes.length) := by
  have hreported := reported_of_ends_run hw h
  refine ⟨hreported, fun hunshared => ?_⟩
  obtain ⟨bytes, hrebuild, hsize⟩ := hreported.size
  obtain ⟨-, target, bytes', -, -, hrebuild', houtput⟩ := steps_of_ends_run hunshared hw.holds h
  obtain rfl : bytes = bytes' := Except.ok.inj (hrebuild.symm.trans hrebuild')
  exact ⟨target, bytes, houtput, hsize⟩

set_option maxRecDepth 100000 in
/-- A class is relabelled in the nested archive. Beside it one is kept, one has no label and one entry is no class. -/
theorem run_reports_sampleWorld :
    ∃ w', sampleWorld.Steady "in.zip" ["in.zip"] sampleFile ∧
      Ends (({ watched := true } : Options).run "in.zip" "once/in.zip") sampleWorld ⟨3, 1, 1, 1, 1, 654⟩ w' ∧
      Reported { watched := true } (ofFile "in.zip" sampleFile) ⟨3, 1, 1, 1, 1, 654⟩ w'.progress ∧
      ∃ target bytes, w'.files.Holds "once/in.zip" target bytes ∧ 654 = bytes.length := by
  have hunshared := (undisturbed_quietWorld {} (archiveFiles sampleFile)).unshared
  have hw := hunshared.steady holds_sampleWorld
  have hname : Files.fileName "in.zip" = "in.zip" := by decide +kernel
  have htakes : sampleWorld.files.Takes sampleWorld.tags "once/in.zip" sampleOutput
      ((archiveFiles sampleFile).set ["in.zip", "once"] (.file sampleOutput)) := by decide +kernel
  obtain ⟨report, w', h, -⟩ := ends_run_sampleWorld (o := { watched := true }) rfl rfl htakes
  obtain ⟨hreported, houtput⟩ := run_reports hw h
  rw [hname] at hreported
  have htree : (leaves sampleTree.preorder).countP Leaf.isClass = 3 ∧
      (leaves sampleTree.preorder).countP (Leaf.isMislabelled {}) = 1 ∧
      (leaves sampleTree.preorder).countP Leaf.isUnlabelled = 1 ∧ resourceCount sampleTree.preorder = 1 ∧
      sampleTree.nestedContainers = 1 ∧ sampleOutput.length = 654 := by decide +kernel
  obtain ⟨hparsed, hrelabelled, hunlabelled, hresources, hcontainers, hlength⟩ := htree
  obtain ⟨bytes, hrebuild, hsize⟩ := hreported.size
  have hcounts := hreported.counts
  rw [ofFile_sampleFile] at hcounts hrebuild
  obtain rfl := Except.ok.inj (rebuild_sampleTree.symm.trans hrebuild)
  have hreport : report = ⟨3, 1, 1, 1, 1, 654⟩ := by
    cases report
    simp only [Report.mk.injEq]
    exact ⟨hcounts.parsed.trans hparsed, hcounts.relabelled.trans hrelabelled, hcounts.unlabelled.trans hunlabelled,
      hcounts.resources.trans hresources, hcounts.containers.trans hcontainers, hsize.trans hlength⟩
  subst hreport
  exact ⟨w', hw, h, hreported, houtput hunshared⟩

end Relabel
end SourceLabel
