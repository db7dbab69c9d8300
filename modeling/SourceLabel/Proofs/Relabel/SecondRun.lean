import SourceLabel.Proofs.Relabel.Again
import SourceLabel.Proofs.Relabel.Completion

/-!
# A second run changes nothing

The output of a run is run over again, under the same file name and with the same policy. The first output is the
input rebuilt, and the second is that rebuilt again, which is the same. This needs that the labels of the first run
settle. A label may be a text that an attribute of the class is named by, and then the second run may find
another label in its place.
-/
namespace SourceLabel.Relabel

open Walk Tree Session Result

variable {o o' : Options} {input output again output' : String} {w w' u : World} {place target place' : Place}
  {b bytes : Bytes} {report : Report} {files : Files}

/-! ## Files that are one class -/

/-- A file that is one class is relabelled as that class. -/
theorem ends_run_class {name : String} {c : ClassFile} {p : Patched} (hname : Files.fileName input = name)
    (hs : (Container.UnpackPlan.forInput name).stage? name true 0 = none)
    (hc : Text.endsWith name Leaf.classSuffix = true) (hw : w.Undisturbed o) (hh : w.files.Holds input place b)
    (hparse : ClassFile.parse b = .ok c) (hp : relabel o.policy ⟨name, []⟩ c = .ok p) (hchange : p.change = .changed)
    (htakes : w.files.Takes w.tags output p.classFile.toBytes files) :
    ∃ report w', Ends (o.run input output) w report w' ∧ report.relabelled = 1 ∧ w'.Undisturbed o ∧
      w'.files = files ∧ w'.tags = w.tags := by
  subst hname
  have htree : ofFile (Files.fileName input) b = .leaf ⟨⟨Files.fileName input, []⟩, [], .plain b⟩ := by
    simp only [ofFile, hs]
  have hclass : (⟨⟨Files.fileName input, []⟩, [], .plain b⟩ : Leaf).isClass = true := hc
  have hpatch : patch o.policy ⟨⟨Files.fileName input, []⟩, [], .plain b⟩ = .ok p :=
    (patch_of_parse rfl hparse o.policy).trans hp
  have hfeed : feed (Collection.step o.policy) {} (ofFile (Files.fileName input) b).preorder =
      .ok (({} : Collection).take ⟨⟨Files.fileName input, []⟩, [], .plain b⟩ p) := by
    rw [htree, preorder, feed_singleton]
    simp only [Collection.step, if_pos hclass, hpatch]
  have hrebuild : rebuild o.policy o.level (ofFile (Files.fileName input) b) = .ok p.classFile.toBytes := by
    rw [htree, rebuild_leaf rfl]
    unfold replacement
    rw [if_pos hclass, hpatch]
    simp only [bind, Except.bind, if_pos hchange]
    rfl
  obtain ⟨report, w', hends, -, hrelabelled, hcarried⟩ := ends_run hw hh hfeed hrebuild htakes
  exact ⟨report, w', hends, hrelabelled.trans (if_pos hchange), hcarried.undisturbed, hcarried.files, hcarried.tags⟩

/-- A class, and two directories beside it. -/
def classFiles (c : ClassFile) : Files where
  nodes := [(["A.class"], .file c.toBytes), (["once"], .directory), (["twice"], .directory)]

def onceFiles (c c' : ClassFile) : Files :=
  (classFiles c).set ["A.class", "once"] (.file c'.toBytes)

/-- A run over the class, into the first directory. -/
theorem ends_run_once {c : ClassFile} {p : Patched} (hparse : ClassFile.parse c.toBytes = .ok c)
    (hp : relabel {} ⟨"A.class", []⟩ c = .ok p) (hchange : p.change = .changed)
    (hopen : (classFiles c).openFile "A.class" = .ok ["A.class"])
    (htakes : (quietWorld (classFiles c)).files.Takes (quietWorld (classFiles c)).tags "once/A.class"
      p.classFile.toBytes (onceFiles c p.classFile)) :
    ∃ report w', Ends (({} : Options).run "A.class" "once/A.class") (quietWorld (classFiles c)) report w' ∧
      w'.Undisturbed {} ∧ w'.files = onceFiles c p.classFile ∧ w'.tags = (quietWorld (classFiles c)).tags := by
  have hname : Files.fileName "A.class" = "A.class" := by decide +kernel
  obtain ⟨report, w', hends, -, hw'⟩ := ends_run_class hname (by decide +kernel) (by decide +kernel)
    (undisturbed_quietWorld {} _) ⟨hopen, rfl⟩ hparse hp hchange htakes
  exact ⟨report, w', hends, hw'⟩

/-! ## The output run over again -/

/-- If the output of a run is run over again, under the same file name and with the same policy, the second run
ends well, meets as many classes, gives none of them another label, and writes the same bytes. The labels that
the first run gives must settle, and readers must find the archives that it writes. -/
theorem secondRun_changes_nothing (hd : o.policy.Dotted) (hw : w.Unshared) (hh : w.files.Holds input place b)
    (h : Ends (o.run input output) w report w') (hr : Repeatable o.policy o.level (ofFile (Files.fileName input) b))
    (hout : w'.files.Holds output target bytes) (hpolicy : o'.policy = o.policy) (hlevel : o'.level = o.level)
    (hname : Files.fileName again = Files.fileName input) (hu : u.Undisturbed o')
    (hin : u.files.Holds again place' bytes) (htakes : u.files.Takes u.tags output' bytes files) :
    ∃ report' u' target', Ends (o'.run again output') u report' u' ∧ report'.relabelled = 0 ∧
      report'.parsed = report.parsed ∧ u'.files.Holds output' target' bytes := by
  obtain ⟨c, target₁, bytes₁, hfeed, hparsed, hrebuild, hout₁⟩ := steps_of_ends_run hw hh h
  obtain rfl : target = target₁ := Except.ok.inj (hout.openFile.symm.trans hout₁.openFile)
  obtain rfl : bytes = bytes₁ := hout.contents.symm.trans hout₁.contents
  obtain ⟨hredone, hrebuild'⟩ := rebuild_again hd hrebuild hr
  obtain ⟨c', hfeed', hrelabelled⟩ := hredone.quiet.feed {}
  have hcount : c'.parsed = c.parsed := by
    rw [parsed_of_feed hfeed, parsed_of_feed hfeed', hredone.count]
  rw [← hname, ← hpolicy] at hfeed' hrebuild'
  rw [← hlevel] at hrebuild'
  obtain ⟨report', u', hends, hparsed', hrelabelled', hcarried⟩ := ends_run hu hin hfeed' hrebuild' htakes
  obtain ⟨target', htarget⟩ := htakes.holds
  refine ⟨report', u', target', hends, hrelabelled'.trans hrelabelled, ?_, hcarried.files ▸ htarget⟩
  rw [hparsed', hcount, hparsed]

theorem unshared_otherLabel : otherLabel.Unshared := by
  have hi : otherLabel.labelIndex = .at 4 := by cbv
  have hname : otherLabel.pool.nameIndex? otherLabel.thisClass = some 3 := by cbv
  refine ⟨fun i h a ha => ?_, fun i h => ?_⟩
  · obtain rfl : 4 = i := ClassFile.LabelIndex.at.inj (hi.symm.trans h)
    obtain rfl := List.mem_singleton.mp ha
    decide
  · obtain rfl : 4 = i := ClassFile.LabelIndex.at.inj (hi.symm.trans h)
    rw [hname]
    decide

set_option maxRecDepth 100000 in
/-- The labels in both archives settle, and both archives are found again. -/
theorem repeatable_sampleTree : Repeatable {} .standard sampleTree := by
  have hN : Repeatable {} .standard
      (.leaf ⟨⟨"in.zip", ["n.jar", "N.class"]⟩, [0, 0], .packed otherEntry otherLabel.toBytes⟩) :=
    repeatable_leaf_of_settled (by decide +kernel) parse_otherLabel
      (settled_of_unshared parse_otherLabel unshared_otherLabel)
  have hK : replacement {} ⟨⟨"in.zip", ["K.class"]⟩, [1], .packed ownEntry ownLabel.toBytes⟩ = .ok none := by
    decide +kernel
  have hU : replacement {} ⟨⟨"in.zip", ["U.class"]⟩, [2], .packed bareEntry noLabel.toBytes⟩ = .ok none := by
    decide +kernel
  have ht : replacement {} ⟨⟨"in.zip", ["t.txt"]⟩, [3], .packed textEntry [104, 105]⟩ = .ok none := by
    decide +kernel
  have hnested : Repeatable {} .standard (.container ⟨⟨"in.zip", ["n.jar"]⟩, [0], .jar, some nestedEntry, []⟩
      [.leaf ⟨⟨"in.zip", ["n.jar", "N.class"]⟩, [0, 0], .packed otherEntry otherLabel.toBytes⟩]) :=
    repeatable_container rfl ⟨hN, trivial⟩ (by decide +kernel)
  refine repeatable_container rfl ⟨hnested, ?_⟩ (by decide +kernel)
  exact ⟨repeatable_leaf_of_kept hK, repeatable_leaf_of_kept hU, repeatable_leaf_of_kept ht, trivial⟩

def onceArchived : Files :=
  (archiveFiles sampleFile).set ["in.zip", "once"] (.file sampleOutput)

set_option maxRecDepth 100000 in
/-- The class in the nested archive is relabelled once. -/
theorem secondRun_changes_nothing_sampleWorld :
    ∃ (report : Report) (w' : World), ({} : Policy).Dotted ∧ sampleWorld.Unshared ∧
      sampleWorld.files.Holds "in.zip" ["in.zip"] sampleFile ∧
      Ends (({} : Options).run "in.zip" "once/in.zip") sampleWorld report w' ∧
      Repeatable {} .standard (ofFile (Files.fileName "in.zip") sampleFile) ∧
      w'.files.Holds "once/in.zip" ["in.zip", "once"] sampleOutput ∧ sampleOutput ≠ sampleFile ∧ w'.Undisturbed {} ∧
      (∃ files, w'.files.Takes w'.tags "twice/in.zip" sampleOutput files) ∧
      ∃ report' u' target', Ends (({} : Options).run "once/in.zip" "twice/in.zip") w' report' u' ∧
        report'.relabelled = 0 ∧ report'.parsed = report.parsed ∧
        u'.files.Holds "twice/in.zip" target' sampleOutput := by
  have hfirst : sampleWorld.files.Takes sampleWorld.tags "once/in.zip" sampleOutput onceArchived := by decide +kernel
  obtain ⟨report, w', hends, hcarried⟩ := ends_run_sampleWorld (o := {}) rfl rfl hfirst
  have hw := (undisturbed_quietWorld {} (archiveFiles sampleFile)).unshared
  have hname : Files.fileName "in.zip" = "in.zip" := by decide +kernel
  have hr : Repeatable {} .standard (ofFile (Files.fileName "in.zip") sampleFile) := by
    rw [hname, ofFile_sampleFile]
    exact repeatable_sampleTree
  have hout : w'.files.Holds "once/in.zip" ["in.zip", "once"] sampleOutput := by
    rw [hcarried.files]
    exact ⟨by decide +kernel, rfl⟩
  have htakes : w'.files.Takes w'.tags "twice/in.zip" sampleOutput
      (onceArchived.set ["in.zip", "twice"] (.file sampleOutput)) := by
    rw [hcarried.files, hcarried.tags]
    decide +kernel
  have hagain : Files.fileName "once/in.zip" = Files.fileName "in.zip" := by decide +kernel
  exact ⟨report, w', Policy.dotted_default, hw, holds_sampleWorld, hends, hr, hout, by decide +kernel,
    hcarried.undisturbed, ⟨_, htakes⟩, secondRun_changes_nothing Policy.dotted_default hw holds_sampleWorld hends hr
      hout rfl rfl hagain hcarried.undisturbed hout htakes⟩

/-- A class with two attributes for its label, named by two equal texts. The first holds the text that it is named
by, the second the name of a file. -/
def nextLabel : ClassFile :=
  { ClassFile.sharedLabel with
    pool := ⟨#[none, some (.utf8 (Text.Modified.encode "SourceFile")), some (.classRef 3),
      some (.utf8 (Text.Modified.encode "A")), some (.utf8 (Text.Modified.encode "SourceFile")),
      some (.utf8 (Text.Modified.encode "X.java"))]⟩
    attributes := [⟨1, Bytes.be16 1⟩, ⟨4, Bytes.be16 5⟩] }

/-- The first run gives a label that the class does not have any more when it is read again, and the second run
finds the other label and changes it. -/
theorem nextLabel_relabelled_twice :
    ({} : Policy).Dotted ∧ Files.fileName "once/A.class" = Files.fileName "A.class" ∧
      ∃ report w' report' u',
        Ends (({} : Options).run "A.class" "once/A.class") (quietWorld (classFiles nextLabel)) report w' ∧
        Ends (({} : Options).run "once/A.class" "twice/A.class") w' report' u' ∧ report'.relabelled = 1 := by
  have hparse : ClassFile.parse nextLabel.toBytes = .ok nextLabel := by cbv
  have hp : relabel {} ⟨"A.class", []⟩ nextLabel = .ok ⟨nextLabel.relabelledAt 1 "A", .changed,
      [.labelChanged ⟨"A.class", []⟩ "SourceFile" "A"]⟩ := by decide +kernel
  have hopen : (classFiles nextLabel).openFile "A.class" = .ok ["A.class"] := by decide +kernel
  have htakes : (quietWorld (classFiles nextLabel)).files.Takes (quietWorld (classFiles nextLabel)).tags
      "once/A.class" (nextLabel.relabelledAt 1 "A").toBytes (onceFiles nextLabel (nextLabel.relabelledAt 1 "A")) := by
    decide +kernel
  have hrun := ends_run_once hparse hp rfl hopen htakes
  obtain ⟨report, w', hends, hw', hfiles, htags⟩ := hrun
  have hname : Files.fileName "once/A.class" = "A.class" := by decide +kernel
  have hout : w'.files.Holds "once/A.class" ["A.class", "once"] (nextLabel.relabelledAt 1 "A").toBytes := by
    rw [hfiles]
    exact ⟨by decide +kernel, by decide +kernel⟩
  have hparse' : ClassFile.parse (nextLabel.relabelledAt 1 "A").toBytes = .ok (nextLabel.relabelledAt 1 "A") := by cbv
  have hp' : relabel {} ⟨"A.class", []⟩ (nextLabel.relabelledAt 1 "A") =
      .ok ⟨(nextLabel.relabelledAt 1 "A").relabelledAt 5 "A.java", .changed,
        [.labelChanged ⟨"A.class", []⟩ "X.java" "A.java"]⟩ := by decide +kernel
  have htakes' : w'.files.Takes w'.tags "twice/A.class"
      ((nextLabel.relabelledAt 1 "A").relabelledAt 5 "A.java").toBytes
      ((onceFiles nextLabel (nextLabel.relabelledAt 1 "A")).set ["A.class", "twice"]
        (.file ((nextLabel.relabelledAt 1 "A").relabelledAt 5 "A.java").toBytes)) := by
    rw [hfiles, htags]
    decide +kernel
  obtain ⟨report', u', hends', hrelabelled, -⟩ := ends_run_class hname (by decide +kernel) (by decide +kernel) hw' hout
    hparse' hp' rfl htakes'
  exact ⟨Policy.dotted_default, by decide +kernel, report, w', report', u', hends, hends', hrelabelled⟩

end SourceLabel.Relabel
