import SourceLabel.Proofs.Files.Copies
import SourceLabel.Proofs.Relabel.Completion
import SourceLabel.Proofs.Relabel.Publication
import SourceLabel.Proofs.Relabel.Renamed
import SourceLabel.Proofs.Relabel.SecondRun

/-!
# Relabelling a file in its place

To relabel a file in its place, a run goes over a copy beside it. What a run makes of a file depends on the name
of its input only as far as the name ends, and the copy has the extension of the file. So it makes no difference
whether a run goes over the copy or over the file itself, unless the name of the file is nothing but the ending
that tells what the file is. Such a name has no extension, and the file is taken for one of no kind.
-/
namespace SourceLabel.Relabel

open Session Result Walk

/-! ## What comes of a run -/

namespace Session

variable {m : Session α} {k : α → Session β} {o : Options} {w : World} {e : Error} {files : Files}
  {t : Files.Temporary}

theorem fails_bind_of_fails (h : (outcome m w).1 = .error e) : (outcome (m >>= k) w).1 = .error e := by
  rw [outcome_bind_of_error (Prod.ext h rfl)]

theorem fails_withTemporary_of {directory suffix : String} {act : Files.Temporary → Session α}
    (hw : w.Undisturbed o) (hc : w.files.createTemporary directory suffix w.tags = .ok (t, files))
    (h : (outcome (act t) { w with files }).1 = .error e) :
    (outcome (withTemporary directory suffix act) w).1 = .error e := by
  rw [outcome_withTemporary, hw.failure?, hc]
  dsimp only
  rcases ho : outcome (act t) { w with files } with ⟨e' | x, w'⟩
  · rw [ho] at h
    exact h
  · rw [ho] at h
    exact nomatch h

end Session

variable {o : Options} {input output path : String} {w : World} {place target : Place} {b bytes : Bytes} {e : Error}

theorem fails_writeOutput_of_feed {pool : ClassPool} (hw : w.Undisturbed o) (hh : w.files.Holds input place b)
    (hroom : ∃ t f, w.files.createTemporary (Files.parent output) "" w.tags = .ok (t, f))
    (hassemble : feed (Assembly.step pool) { plan := .forOutput (Files.fileName output), level := o.level }
      (Tree.ofFile (Files.fileName input) b).preorder >>= Assembly.finish = .error e) :
    (outcome (o.writeOutput input output pool) w).1 = .error e := by
  obtain ⟨t, f, hc⟩ := hroom
  obtain ⟨w₁, w₂, hs, hw₁, hc, hwalk, hk₂⟩ := outcome_walkOver_output pool hw hh hc
  unfold Options.writeOutput
  rw [outcome_bind_of_ends hs]
  refine fails_withTemporary_of hw₁ hc ?_
  rcases bind_eq_error.mp hassemble with ha | ⟨a, ha, hfinish⟩
  · rw [ha] at hwalk
    exact congrArg Prod.fst (outcome_bind_of_error hwalk)
  · rw [ha] at hwalk
    rw [outcome_bind_of_ends hwalk, outcome_bind_of_ends (ends_checkpoint_of_undisturbed hk₂.undisturbed), hfinish]
    rfl

theorem fails_run_of_make (hw : w.Undisturbed o) (hh : w.files.Holds input place b)
    (hroom : ∃ t f, w.files.createTemporary (Files.parent output) "" w.tags = .ok (t, f))
    (hmake : o.make (Files.fileName input) (Files.fileName output) b = .error e) :
    (outcome (o.run input output) w).1 = .error e := by
  have hR := World.lasting_carried o
  have hk₁ := hR.reach w .collecting (.collecting input) hw
  have hh₁ := hk₁.files ▸ hh
  unfold Options.run
  rw [outcome_setPhase_tell]
  rcases Options.make_eq_error hmake with hfeed | ⟨c, hfeed, hassemble⟩
  · have hcollect := outcome_of_not_interrupted (obeys_collect hR (fun _ _ => trivial) o input) hk₁.undisturbed
      (outcome_collect o (hk₁.undisturbed.unshared.steady hh₁))
    exact fails_bind_of_fails (hcollect.1.trans hfeed)
  · obtain ⟨w₂, hcollect, hk₂⟩ := ends_collect_of_feed hk₁.undisturbed hh₁ hfeed
    have hk₃ := (hk₁.trans hk₂).trans
      (hR.meet w₂ (.told (.collected c.parsed c.relabelled c.unlabelled)) hk₂.undisturbed)
    have hk₄ := hk₃.trans (hR.reach _ .writing (.writing output) hk₃.undisturbed)
    have htell : Ends (tell (.collected c.parsed c.relabelled c.unlabelled)) w₂ () _ := ends_tell.mpr rfl
    rw [outcome_bind_of_ends hcollect, outcome_bind_of_ends htell, outcome_setPhase_tell]
    rw [← hk₄.files, ← hk₄.tags] at hroom
    exact fails_bind_of_fails (fails_writeOutput_of_feed hk₄.undisturbed (hk₄.files ▸ hh) hroom hassemble)

/-- The store when a run over to the file at this place is over: the file is replaced if the run ends well. -/
def afterRun (f : Files) (target : Place) : Except Error (Report × Bytes) → Files
  | .ok (_, bytes) => f.set target (.file bytes)
  | .error _ => f

/-- A run that nobody disturbs comes to what it makes of its input, if its output is to replace a file and there
is room for it beside that file. -/
theorem outcome_run (hw : w.Undisturbed o) (hh : w.files.Holds input place b)
    (hopen : w.files.openFile output = .ok target)
    (hroom : ∃ t f, w.files.createTemporary (Files.parent output) "" w.tags = .ok (t, f)) :
    (outcome (o.run input output) w).1 = (o.make (Files.fileName input) (Files.fileName output) b).map Prod.fst ∧
      (outcome (o.run input output) w).2.files =
        afterRun w.files target (o.make (Files.fileName input) (Files.fileName output) b) := by
  rcases hmake : o.make (Files.fileName input) (Files.fileName output) b with e | ⟨report, bytes⟩
  · have hfails := fails_run_of_make hw hh hroom hmake
    exact ⟨hfails, undone_run (D := fun _ => True) o input output w e _ hw.unshared trivial (Prod.ext hfails rfl)⟩
  · obtain ⟨t, f, hc⟩ := hroom
    have hopen' := (Files.openFile_createTemporary hopen hc).1
    have hpublish := Files.publish_of_openFile hopen' t bytes
    obtain ⟨hn, rfl⟩ := Files.createTemporary_eq_ok hc
    rw [Files.remove_set_self, Files.remove_of_node? hn] at hpublish
    obtain ⟨w', hends, hcarried⟩ := ends_run_of_make hw hh hmake (Files.takes_iff.mpr ⟨t, _, hc, hpublish⟩)
    rw [hends]
    exact ⟨rfl, hcarried.files⟩

/-! ## What comes of a run over a copy -/

variable {copy : Files.Temporary} {f : Files}

/-- The copy holds what the file holds when the run over it begins. -/
theorem outcome_copyInto_tell (hw : w.Undisturbed o) (hh : w.files.Holds path place b)
    (hcopy : w.files.createTemporary (Files.parent path) (Files.extension path) w.tags = .ok (copy, f)) :
    ∃ w', w'.Undisturbed o ∧ w'.files = w.files.set copy.place (.file b) ∧ w'.tags = w.tags ∧
      ∀ k : Session Report, outcome (do Options.copyInto copy path; tell (.copied path copy.path); k)
        { w with files := f } = outcome k w' := by
  obtain ⟨hl, b', hfile⟩ := Files.openFile_eq_ok.mp (hh.createTemporary hcopy).openFile
  obtain rfl : b' = b := (Files.contents_eq_of_node? hfile).symm.trans (hh.createTemporary hcopy).contents
  obtain ⟨hn, rfl⟩ := Files.createTemporary_eq_ok hcopy
  have hcopied : Ends (Options.copyInto copy path) { w with files := w.files.set copy.place (.file []) } ()
      { w with files := w.files.set copy.place (.file b') } := by
    have hw' := hw.withFiles (w.files.set copy.place (.file []))
    refine ends_bind.mpr ⟨(), _, ends_access_of_undisturbed hw' _, ?_⟩
    refine ends_bind.mpr ⟨_, _, ends_get.mpr ⟨rfl, rfl⟩, ends_bind.mpr ⟨place, _, ends_ofFault.mpr ⟨hl, rfl⟩, ?_⟩⟩
    dsimp only
    rw [hfile]
    have hset := Files.set_set_of_node? hn (.file []) (.file b')
    exact ends_modify.mpr (congrArg (fun files => { w with files }) hset)
  have htold := (World.lasting_carried o).meet { w with files := w.files.set copy.place (.file b') }
    (.told (.copied path copy.path)) (hw.withFiles _)
  have htell : Ends (tell (.copied path copy.path)) { w with files := w.files.set copy.place (.file b') } () _ :=
    ends_tell.mpr rfl
  refine ⟨_, htold.undisturbed, htold.files, htold.tags, fun k => ?_⟩
  rw [outcome_bind_of_ends hcopied, outcome_bind_of_ends htell]

/-- A run in the place of a file comes to what a run makes of the file under the name of its copy. -/
theorem outcome_runInPlace (hw : w.Undisturbed o) (hh : w.files.Holds path place b)
    (hcopy : w.files.createTemporary (Files.parent path) (Files.extension path) w.tags = .ok (copy, f))
    (hroom : ∃ t f', (w.files.set copy.place (.file b)).createTemporary (Files.parent path) "" w.tags = .ok (t, f')) :
    (outcome (o.runInPlace path) w).1 = (o.make (Files.fileName copy.path) (Files.fileName path) b).map Prod.fst ∧
      (outcome (o.runInPlace path) w).2.files =
        afterRun w.files place (o.make (Files.fileName copy.path) (Files.fileName path) b) := by
  have hn := (Files.createTemporary_eq_ok hcopy).1
  have hback : (w.files.set copy.place (.file b)).remove copy.place = w.files := by
    simp [Files.remove_of_node? hn]
  have hplace : copy.place ≠ place := by
    rintro rfl
    obtain ⟨-, b', hfile⟩ := Files.openFile_eq_ok.mp hh.openFile
    exact nomatch hfile.symm.trans hn
  obtain ⟨hopen, hcontents⟩ := Files.openFile_temporary hcopy b
  have houtput := (Files.openFile_set hh.openFile hn b).1
  obtain ⟨w', hw', hfiles', htags', hbegin⟩ := outcome_copyInto_tell hw hh hcopy
  rw [← hfiles'] at hback hopen hcontents houtput hroom
  rw [← htags'] at hroom
  obtain ⟨hresult, hfiles⟩ := outcome_run hw' ⟨hopen, hcontents⟩ houtput hroom
  unfold Options.runInPlace
  rw [outcome_withTemporary, hw.failure?, hcopy]
  dsimp only
  rw [hbegin]
  rcases hmake : o.make (Files.fileName copy.path) (Files.fileName path) b with e | ⟨report, bytes⟩
  · rw [hmake] at hresult hfiles
    rw [outcome_bind_of_error (Prod.ext hresult rfl)]
    exact ⟨rfl, (congrArg (Files.remove · copy.place) hfiles).trans hback⟩
  · rw [hmake] at hresult hfiles
    have hends : Ends (o.run copy.path path) w' report _ := Prod.ext hresult rfl
    have hremove : Ends (removeTemporary copy) (outcome (o.run copy.path path) w').2 () _ := ends_modify.mpr rfl
    have hdevice := (obeys_run World.lasting_device (fun _ _ => rfl) o copy.path path).moves w'
    have hclose : Ends (access { operation := .close }) (outcome (o.run copy.path path) w').2 () _ :=
      ends_access.mpr ⟨World.failure?_eq_none (by rw [hdevice]; exact hw'.faultless) _, rfl⟩
    rw [outcome_bind_of_ends hends, outcome_bind_of_ends hclose, outcome_bind_of_ends hremove]
    refine ⟨rfl, (congrArg (Files.remove · copy.place) hfiles).trans ?_⟩
    rw [afterRun, afterRun, Files.remove_set_of_ne hplace, hback]

/-! ## The two names -/

/-- What a run makes depends on the name of its input only as far as the name ends. -/
theorem alike_make {m n : String} (h : EndsAlike m n) (o : Options) (outputName : String) (b : Bytes) :
    Alike Eq (o.make m outputName b) (o.make n outputName b) := by
  have hevents := Tree.renamed_ofFile h b
  have hempty : SamePool {} {} := fun _ => rfl
  unfold Options.make
  refine (alike_feed (alike_collection_step h o.policy) hevents ⟨hempty, rfl, rfl, rfl⟩).bind fun c c' hc => ?_
  refine (alike_feed (Assembly.alike_step h hc.pool) hevents rfl).bind fun a a' ha => ?_
  subst ha
  refine (alike_refl a.finish).bind fun bytes bytes' hbytes => ?_
  subst hbytes
  rw [hc.parsed, hc.relabelled, hc.unlabelled]
  exact alike_refl _

theorem make_of_resource {name : String} (hkind : Container.Kind.ofName? name = none)
    (hclass : Text.endsWith name Leaf.classSuffix = false) (o : Options) (outputName : String) (b : Bytes) :
    o.make name outputName b = .ok (⟨0, 0, 0, 1, 0, b.length⟩, b) := by
  have hstage : (Container.UnpackPlan.forInput name).stage? name true 0 = none := by
    unfold Container.UnpackPlan.forInput
    rw [hkind]
    rfl
  have htree : Tree.ofFile name b = .leaf ⟨⟨name, []⟩, [], .plain b⟩ := by
    simp only [Tree.ofFile, hstage]
  have hleaf : ¬ (⟨⟨name, []⟩, [], .plain b⟩ : Leaf).isClass = true := Bool.eq_false_iff.mp hclass
  let start : Assembly := { plan := .forOutput outputName, level := o.level }
  refine Options.make_eq_ok.mpr ⟨{}, { start with target := .bare b, resources := 1 }, ?_, ?_, rfl, rfl⟩
  · rw [htree, Tree.preorder, feed_singleton]
    simp only [Collection.step, if_neg hleaf]
  · rw [htree, Tree.preorder, feed_singleton]
    simp only [Assembly.step, Assembly.leaf, if_neg hleaf]
    rfl

/-- The endings that tell what a file is. -/
def endings : List String :=
  Container.Kind.all.map Container.Kind.extension ++ [Leaf.classSuffix]

theorem isExtension_of_mem_endings {ending : String} (h : ending ∈ endings) :
    IsExtension ending ∧ '-' ∉ ending.toList := by
  have hends : endings = [".jar", ".aar", ".zip", ".class"] := by decide
  have hword : ∀ cs : List Char, '.' ∉ cs → '-' ∉ cs → ending.toList = '.' :: cs →
      IsExtension ending ∧ '-' ∉ ending.toList := by
    intro cs hdot hdash hcs
    rw [hcs]
    exact ⟨⟨cs, hcs, hdot⟩, fun hm => (List.mem_cons.mp hm).elim (by decide) hdash⟩
  rw [hends] at h
  simp only [List.mem_cons, List.not_mem_nil, or_false] at h
  rcases h with rfl | rfl | rfl | rfl
  · exact hword "jar".toList (by decide) (by decide) rfl
  · exact hword "aar".toList (by decide) (by decide) rfl
  · exact hword "zip".toList (by decide) (by decide) rfl
  · exact hword "class".toList (by decide) (by decide) rfl

theorem endsAlike_of_endings {m n : String} (h : ∀ ending ∈ endings, Text.endsWith m ending = Text.endsWith n ending) :
    EndsAlike m n := by
  refine ⟨fun kind => h _ (List.mem_append_left _ (List.mem_map_of_mem ?_)), h _ (by simp [endings])⟩
  cases kind <;> decide

theorem make_of_no_ending {name : String} (h : ∀ ending ∈ endings, Text.endsWith name ending = false) (o : Options)
    (outputName : String) (b : Bytes) : o.make name outputName b = .ok (⟨0, 0, 0, 1, 0, b.length⟩, b) := by
  refine make_of_resource (List.find?_eq_none.mpr fun kind hk => ?_) (h _ (by simp [endings])) o outputName b
  exact Bool.eq_false_iff.mp (h _ (List.mem_append_left _ (List.mem_map_of_mem hk)))

/-! ## The file itself and its copy -/

/-- A run in the place of a file that nobody else writes to, with room for a copy beside it, ends as a run over the
file itself does: well, with the same report, or with the same failure but for the paths in it. All files are the
same after it. This is so unless the name of the file is nothing but an ending that tells what a file is. Such a
file is left as it is, and reported to be a resource. -/
theorem runInPlace_agrees (hw : w.Undisturbed o) (hh : w.files.Holds path place b)
    (htags : ∀ tag ∈ w.tags, Files.IsPlain tag) (hroom : w.files.HasRoom w.tags path) :
    (Files.fileName path ∉ endings →
      (outcome (o.runInPlace path) w).1.mapError Error.unplaced =
          (outcome (o.run path path) w).1.mapError Error.unplaced ∧
        (outcome (o.runInPlace path) w).2.files = (outcome (o.run path path) w).2.files) ∧
    (Files.fileName path ∈ endings →
      (outcome (o.runInPlace path) w).1 = .ok ⟨0, 0, 0, 1, 0, b.length⟩ ∧
        (outcome (o.runInPlace path) w).2.files = w.files.set place (.file b)) := by
  obtain ⟨copy, f, hcopy, hbeside⟩ := hroom.besideCopy
  obtain ⟨hcopied, hcopiedFiles⟩ := outcome_runInPlace hw hh hcopy (hbeside b)
  obtain ⟨hdirect, hdirectFiles⟩ := outcome_run hw hh hh.openFile hroom.direct
  constructor
  · intro hname
    have hends : EndsAlike (Files.fileName copy.path) (Files.fileName path) := by
      refine endsAlike_of_endings fun ending hending => ?_
      obtain ⟨hext, hdash⟩ := isExtension_of_mem_endings hending
      exact Files.endsWith_copy_eq hcopy htags hh.openFile hext hdash fun he => hname (he ▸ hending)
    have hmake := alike_make hends o (Files.fileName path) b
    rw [hcopied, hcopiedFiles, hdirect, hdirectFiles]
    generalize o.make (Files.fileName copy.path) (Files.fileName path) b = x at hmake
    generalize o.make (Files.fileName path) (Files.fileName path) b = y at hmake
    cases hmake with
    | error he => exact ⟨congrArg Except.error he, rfl⟩
    | ok he => exact he ▸ ⟨rfl, rfl⟩
  · intro hname
    have hnone : ∀ ending ∈ endings, Text.endsWith (Files.fileName copy.path) ending = false := by
      intro ending hending
      obtain ⟨hext, hdash⟩ := isExtension_of_mem_endings hending
      exact Files.endsWith_copy_of_isExtension hcopy htags hh.openFile hext hdash (isExtension_of_mem_endings hname).1
    rw [hcopied, hcopiedFiles, make_of_no_ending hnone]
    exact ⟨rfl, rfl⟩

theorem runInPlace_agrees_otherLabel :
    (quietWorld (classFiles otherLabel)).Undisturbed {} ∧
      (classFiles otherLabel).Holds "A.class" ["A.class"] otherLabel.toBytes ∧
      (∀ tag ∈ (quietWorld (classFiles otherLabel)).tags, Files.IsPlain tag) ∧
      (classFiles otherLabel).HasRoom (quietWorld (classFiles otherLabel)).tags "A.class" ∧
      Files.fileName "A.class" ∉ endings ∧
      (outcome (({} : Options).runInPlace "A.class") (quietWorld (classFiles otherLabel))).1.mapError Error.unplaced =
        (outcome (({} : Options).run "A.class" "A.class") (quietWorld (classFiles otherLabel))).1.mapError
          Error.unplaced ∧
      (outcome (({} : Options).runInPlace "A.class") (quietWorld (classFiles otherLabel))).2.files =
        (outcome (({} : Options).run "A.class" "A.class") (quietWorld (classFiles otherLabel))).2.files := by
  have hw := undisturbed_quietWorld {} (classFiles otherLabel)
  have hh : (classFiles otherLabel).Holds "A.class" ["A.class"] otherLabel.toBytes := ⟨by decide +kernel, rfl⟩
  have hcopy : (classFiles otherLabel).createTemporary (Files.parent "A.class") (Files.extension "A.class")
      (quietWorld (classFiles otherLabel)).tags =
        .ok (⟨"/./.sourcefile-fixer-000000.class", [".sourcefile-fixer-000000.class"]⟩,
          (classFiles otherLabel).set [".sourcefile-fixer-000000.class"] (.file [])) := by decide +kernel
  have hbeside : ((classFiles otherLabel).set [".sourcefile-fixer-000000.class"] (.file [])).createTemporary
      (Files.parent "A.class") "" (quietWorld (classFiles otherLabel)).tags =
        .ok (⟨"/./.sourcefile-fixer-000000", [".sourcefile-fixer-000000"]⟩,
          ((classFiles otherLabel).set [".sourcefile-fixer-000000.class"] (.file [])).set [".sourcefile-fixer-000000"]
            (.file [])) := by decide +kernel
  have htags : ∀ tag ∈ (quietWorld (classFiles otherLabel)).tags, Files.IsPlain tag := by
    simpa only [quietWorld] using Files.isPlain_temporaryTags
  have hroom : (classFiles otherLabel).HasRoom (quietWorld (classFiles otherLabel)).tags "A.class" :=
    ⟨_, _, hcopy, _, _, hbeside⟩
  have hname : Files.fileName "A.class" ∉ endings := by decide +kernel
  exact ⟨hw, hh, htags, hroom, hname, (runInPlace_agrees hw hh htags hroom).1 hname⟩

/-- A class in a file that is called by its ending alone. -/
def hiddenFiles : Files where
  nodes := [([".class"], .file otherLabel.toBytes)]

/-- The class is relabelled by a run over its file, and overlooked by a run in the place of that file. -/
theorem hidden_overlooked :
    (∃ report w', Ends (({} : Options).run ".class" ".class") (quietWorld hiddenFiles) report w' ∧
      report.relabelled = 1 ∧ w'.files.contents [".class"] = (otherLabel.relabelledAt 4 "A.java").toBytes) ∧
    (outcome (({} : Options).runInPlace ".class") (quietWorld hiddenFiles)).1 =
      .ok ⟨0, 0, 0, 1, 0, otherLabel.toBytes.length⟩ ∧
    (outcome (({} : Options).runInPlace ".class") (quietWorld hiddenFiles)).2.files.contents [".class"] =
      otherLabel.toBytes ∧
    otherLabel.toBytes ≠ (otherLabel.relabelledAt 4 "A.java").toBytes := by
  have hp : relabel {} ⟨".class", []⟩ otherLabel = .ok ⟨otherLabel.relabelledAt 4 "A.java", .changed,
      [.labelChanged ⟨".class", []⟩ "X.java" "A.java"]⟩ := by decide +kernel
  have htakes : (quietWorld hiddenFiles).files.Takes (quietWorld hiddenFiles).tags ".class"
      (otherLabel.relabelledAt 4 "A.java").toBytes
      (hiddenFiles.set [".class"] (.file (otherLabel.relabelledAt 4 "A.java").toBytes)) := by decide +kernel
  have hname : Files.fileName ".class" = ".class" := by decide +kernel
  have hh : (quietWorld hiddenFiles).files.Holds ".class" [".class"] otherLabel.toBytes := ⟨by decide +kernel, rfl⟩
  obtain ⟨report, w', hends, hrelabelled, -, hfiles, -⟩ := ends_run_class hname (by decide +kernel) (by decide +kernel)
    (undisturbed_quietWorld {} hiddenFiles) hh parse_otherLabel hp rfl htakes
  refine ⟨⟨report, w', hends, hrelabelled, ?_⟩, by decide +kernel, by decide +kernel, by decide +kernel⟩
  rw [hfiles]
  decide +kernel

end SourceLabel.Relabel
