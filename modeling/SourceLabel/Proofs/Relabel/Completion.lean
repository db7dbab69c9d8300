import SourceLabel.Proofs.ClassFile.Label
import SourceLabel.Proofs.Relabel.Assembled
import SourceLabel.Proofs.Relabel.Steady

/-!
# Runs that end well

A run ends well if nobody disturbs it, every class can be relabelled, the file can be rebuilt and the store of
files takes the output. Its report counts what the first pass makes of the traversal.
-/
namespace SourceLabel

/-- A temporary file is made beside the output, these bytes are published in its place, and then the store is
`f'`. -/
def Files.Takes (f : Files) (tags : List String) (output : String) (b : Bytes) (f' : Files) : Prop :=
  (do
    let (t, f₁) ← f.createTemporary (parent output) "" tags
    f₁.publish t b output) = .ok f'

instance (f : Files) (tags : List String) (output : String) (b : Bytes) (f' : Files) :
    Decidable (f.Takes tags output b f') :=
  inferInstanceAs (Decidable (_ = _))

theorem Files.takes_iff {f f' : Files} {tags : List String} {output : String} {b : Bytes} :
    f.Takes tags output b f' ↔
      ∃ t f₁, f.createTemporary (parent output) "" tags = .ok (t, f₁) ∧ f₁.publish t b output = .ok f' := by
  unfold Takes
  rw [Result.bind_eq_ok]
  simp only [Prod.exists]

theorem Files.Takes.holds {f f' : Files} {tags : List String} {output : String} {b : Bytes}
    (h : f.Takes tags output b f') : ∃ place, f'.Holds output place b := by
  obtain ⟨t, f₁, hc, hp⟩ := takes_iff.mp h
  obtain ⟨place, hopen, hcontents⟩ := openFile_publish (node?_createTemporary hc) hp
  exact ⟨place, hopen, hcontents⟩

namespace Relabel

open Session Result Walk

/-- Nobody else writes to files, no stop is asked for that a run with these options heeds, and the device does not
fail. -/
structure World.Undisturbed (o : Options) (w : World) : Prop where
  unshared : w.Unshared
  faultless : ∀ moments a, w.device moments a = none
  goesOn : o.watched = true →
    w.progress.isCancelled = false ∧ ∀ moments m, (w.outside moments m).cancels = false

/-- What remains of a world in which an undisturbed run goes on. -/
structure World.Carried (o : Options) (w w' : World) : Prop where
  undisturbed : w'.Undisturbed o
  files : w'.files = w.files
  tags : w'.tags = w.tags

namespace World

variable {o : Options} {w w' w'' : World}

theorem Carried.trans (h : Carried o w w') (h' : Carried o w' w'') : Carried o w w'' :=
  ⟨h'.undisturbed, h'.files.trans h.files, h'.tags.trans h.tags⟩

theorem Undisturbed.withFiles (h : w.Undisturbed o) (files : Files) : ({ w with files } : World).Undisturbed o :=
  ⟨h.unshared, h.faultless, h.goesOn⟩

theorem failure?_eq_none (h : ∀ moments a, w.device moments a = none) (a : Access) : w.failure? a = none := by
  unfold World.failure?
  rw [h]
  rfl

theorem Undisturbed.failure? (h : w.Undisturbed o) (a : Access) : w.failure? a = none :=
  failure?_eq_none h.faultless a

theorem Undisturbed.not_interrupted {r : Except Error α} (h : w.Undisturbed o) : ¬ Interrupted o r w := by
  rintro (⟨hwatched, hasked⟩ | ⟨-, hfault⟩)
  · exact nomatch hasked.symm.trans (h.goesOn hwatched).1
  · exact nomatch hfault.symm.trans (h.faultless _ _)

theorem Undisturbed.meet (h : w.Undisturbed o) (m : Moment) : (w.meet m).Undisturbed o := by
  refine ⟨(kept_meet h.unshared m).unshared h.unshared, h.faultless, fun hwatched => ?_⟩
  obtain ⟨hprogress, hcancels⟩ := h.goesOn hwatched
  refine ⟨?_, hcancels⟩
  unfold World.meet
  simp only [hcancels w.moments m, Bool.false_eq_true, if_false, hprogress]

theorem lasting_carried (o : Options) : Lasting fun w w' => w.Undisturbed o → Carried o w w' where
  refl _ h := ⟨h, rfl, rfl⟩
  trans h h' hw := (h hw).trans (h' (h hw).undisturbed)
  meet _ m h := ⟨h.meet m, (kept_meet h.unshared m).files, rfl⟩
  phase _ _ h := ⟨⟨h.unshared, h.faultless, h.goesOn⟩, rfl, rfl⟩
  progress _ _ hp h := ⟨⟨h.unshared, h.faultless, fun hwatched => hp ▸ h.goesOn hwatched⟩, rfl, rfl⟩

end World

namespace Session

variable {o : Options} {w : World} {m : Session α} {r : Except Error α} {x : α}

/-- Where only an interruption could keep the work from its result, undisturbed work comes to that result. -/
theorem outcome_of_not_interrupted (hm : Obeys (fun w w' => w.Undisturbed o → w.Carried o w') (fun _ => True) m)
    (hw : w.Undisturbed o) (h : Interrupted o (outcome m w).1 (outcome m w).2 ∨ (outcome m w).1 = r) :
    (outcome m w).1 = r ∧ w.Carried o (outcome m w).2 := by
  have hcarried := hm.moves w hw
  rcases h with hcut | hr
  · exact (hcarried.undisturbed.not_interrupted hcut).elim
  · exact ⟨hr, hcarried⟩

theorem ends_of_not_interrupted (hm : Obeys (fun w w' => w.Undisturbed o → w.Carried o w') (fun _ => True) m)
    (hw : w.Undisturbed o) (h : Interrupted o (outcome m w).1 (outcome m w).2 ∨ (outcome m w).1 = .ok x) :
    ∃ w', Ends m w x w' ∧ w.Carried o w' := by
  obtain ⟨hok, hcarried⟩ := outcome_of_not_interrupted hm hw h
  exact ⟨_, Prod.ext hok rfl, hcarried⟩

theorem ends_withTemporary_of {directory suffix : String} {act : Files.Temporary → Session α} {w' : World}
    {t : Files.Temporary} {files : Files} (hw : w.Undisturbed o)
    (hc : w.files.createTemporary directory suffix w.tags = .ok (t, files))
    (h : Ends (act t) { w with files } x w') : Ends (withTemporary directory suffix act) w x w' := by
  unfold Ends
  rw [outcome_withTemporary, hw.failure?, hc]
  simp only
  rw [h]

theorem ends_access_of_undisturbed (hw : w.Undisturbed o) (a : Access) : Ends (access a) w () w :=
  ends_access.mpr ⟨hw.failure? a, rfl⟩

theorem ends_reachAll_of_undisturbed (hw : w.Undisturbed o) (accesses : List Access) :
    Ends (performAll (accesses.map .reach)) w () w :=
  ends_reachAll.mpr ⟨fun a _ => hw.failure? a, rfl⟩

theorem ends_checkpoint_of_undisturbed (hw : w.Undisturbed o) :
    Ends (checkpoint o.watched) w () (w.meet .checkpoint) := by
  refine ends_checkpoint.mpr ⟨?_, rfl⟩
  cases hwatched : o.watched with
  | false => rfl
  | true => exact ((hw.meet .checkpoint).goesOn hwatched).1

end Session

variable {o : Options} {input output : String} {w : World} {place : Place} {b bytes : Bytes} {c : Collection}
  {files : Files} {report : Report}

theorem ends_collect_of_feed (hw : w.Undisturbed o) (hh : w.files.Holds input place b)
    (hfeed : feed (Collection.step o.policy) {} (Tree.ofFile (Files.fileName input) b).preorder = .ok c) :
    ∃ w', Ends (o.collect input) w c w' ∧ w.Carried o w' := by
  have ho := outcome_collect o (hw.unshared.steady hh)
  rw [hfeed] at ho
  exact ends_of_not_interrupted (obeys_collect (World.lasting_carried o) (fun _ _ => trivial) o input) hw ho

/-- The second pass walks beside its temporary file, and assembles what the traversal gives. -/
theorem outcome_walkOver_output {t : Files.Temporary} {f₁ : Files} (pool : ClassPool) (hw : w.Undisturbed o)
    (hh : w.files.Holds input place b)
    (hc : w.files.createTemporary (Files.parent output) "" w.tags = .ok (t, f₁)) :
    ∃ w₁ w₂, Ends (o.startPass 2) w () w₁ ∧ w₁.Undisturbed o ∧
      w₁.files.createTemporary (Files.parent output) "" w₁.tags = .ok (t, f₁) ∧
      outcome (o.walkOver input (Assembly.step pool)
        { plan := .forOutput (Files.fileName output), level := o.level }) { w₁ with files := f₁ } =
          (feed (Assembly.step pool) { plan := .forOutput (Files.fileName output), level := o.level }
            (Tree.ofFile (Files.fileName input) b).preorder, w₂) ∧
      ({ w with files := f₁ } : World).Carried o w₂ := by
  have hR := World.lasting_carried o
  obtain ⟨_, w₁, hs, hk₁⟩ := (obeys_startPass hR o 2).ends w
  replace hk₁ := hk₁ hw
  rw [← hk₁.files, ← hk₁.tags] at hc
  have hh₁ : f₁.Holds input place b := (hk₁.files ▸ hh).createTemporary hc
  have hw₁ := hk₁.undisturbed.withFiles f₁
  obtain ⟨hwalk, hk₂⟩ :=
    outcome_of_not_interrupted (obeys_walkOver hR (fun _ _ => trivial) (takes_true _ _) trivial) hw₁
      (outcome_walkOver o (Assembly.step pool) { plan := .forOutput (Files.fileName output), level := o.level }
        (hw₁.unshared.steady hh₁))
  exact ⟨w₁, _, hs, hk₁.undisturbed, hc, Prod.ext hwalk rfl, hk₂.undisturbed, hk₂.files, hk₂.tags.trans hk₁.tags⟩

theorem ends_writeOutput_of_feed {pool : ClassPool} {a : Assembly} (hw : w.Undisturbed o)
    (hh : w.files.Holds input place b)
    (hfeed : feed (Assembly.step pool) { plan := .forOutput (Files.fileName output), level := o.level }
      (Tree.ofFile (Files.fileName input) b).preorder = .ok a)
    (hfinish : a.finish = .ok bytes) (htakes : w.files.Takes w.tags output bytes files) :
    ∃ w', Ends (o.writeOutput input output pool) w (a, bytes.length) w' ∧
      ({ w with files } : World).Carried o w' := by
  obtain ⟨t, f₁, hc, hpublish⟩ := Files.takes_iff.mp htakes
  obtain ⟨w₁, w₂, hs, hw₁, hc, hwalk, hk₂⟩ := outcome_walkOver_output pool hw hh hc
  rw [hfeed] at hwalk
  have hk₃ := hk₂.trans ((World.lasting_carried o).meet w₂ .checkpoint hk₂.undisturbed)
  have hcheck := ends_checkpoint_of_undisturbed hk₂.undisturbed
  rw [← show (w₂.meet .checkpoint).files = f₁ from hk₃.files] at hpublish
  refine ⟨{ w₂.meet .checkpoint with files }, ?_, hk₃.undisturbed.withFiles files, rfl, hk₃.tags⟩
  refine ends_bind.mpr ⟨_, w₁, hs, ends_withTemporary_of hw₁ hc ?_⟩
  refine ends_bind.mpr ⟨a, w₂, hwalk, ends_bind.mpr ⟨(), _, hcheck, ?_⟩⟩
  refine ends_bind.mpr ⟨_, _, ends_ofExcept.mpr ⟨hfinish, rfl⟩, ?_⟩
  refine ends_bind.mpr ⟨(), _, ends_reachAll_of_undisturbed hk₃.undisturbed _, ?_⟩
  refine ends_bind.mpr ⟨_, _, ends_get.mpr ⟨rfl, rfl⟩, ?_⟩
  refine ends_bind.mpr ⟨files, _, ends_ofFault.mpr ⟨hpublish, rfl⟩, ?_⟩
  exact ends_bind.mpr ⟨(), _, ends_modify.mpr rfl, ends_pure.mpr ⟨rfl, rfl⟩⟩

/-! ## Whole runs -/

/-- What a run makes of a file of this name: its report and the bytes of its output. -/
def Options.make (o : Options) (name output : String) (b : Bytes) : Except Error (Report × Bytes) := do
  let events := (Tree.ofFile name b).preorder
  let c ← feed (Collection.step o.policy) {} events
  let a ← feed (Assembly.step c.pool) { plan := .forOutput output, level := o.level } events
  let bytes ← a.finish
  return (⟨c.parsed, c.relabelled, c.unlabelled, a.resources, a.containers, bytes.length⟩, bytes)

theorem Options.make_eq_ok {name outputName : String} :
    o.make name outputName b = .ok (report, bytes) ↔
      ∃ c a, feed (Collection.step o.policy) {} (Tree.ofFile name b).preorder = .ok c ∧
        feed (Assembly.step c.pool) { plan := .forOutput outputName, level := o.level }
          (Tree.ofFile name b).preorder = .ok a ∧
        a.finish = .ok bytes ∧
        report = ⟨c.parsed, c.relabelled, c.unlabelled, a.resources, a.containers, bytes.length⟩ := by
  unfold make
  dsimp only
  rw [bind_eq_ok]
  refine exists_congr fun c => ?_
  rw [bind_eq_ok]
  constructor
  · rintro ⟨hc, a, ha, h⟩
    obtain ⟨bytes', hfinish, h⟩ := bind_eq_ok.mp h
    obtain ⟨hreport, rfl⟩ := Prod.mk.inj (Except.ok.inj h)
    exact ⟨a, hc, ha, hfinish, hreport.symm⟩
  · rintro ⟨a, hc, ha, hfinish, rfl⟩
    exact ⟨hc, a, ha, bind_eq_ok.mpr ⟨bytes, hfinish, rfl⟩⟩

/-- Nothing is made if the first pass or the second cannot go over the input. -/
theorem Options.make_eq_error {name outputName : String} {e : Error} (h : o.make name outputName b = .error e) :
    feed (Collection.step o.policy) {} (Tree.ofFile name b).preorder = .error e ∨
      ∃ c, feed (Collection.step o.policy) {} (Tree.ofFile name b).preorder = .ok c ∧
        (feed (Assembly.step c.pool) { plan := .forOutput outputName, level := o.level }
          (Tree.ofFile name b).preorder >>= Assembly.finish) = .error e := by
  rcases bind_eq_error.mp h with hfeed | ⟨c, hfeed, h⟩
  · exact .inl hfeed
  · refine .inr ⟨c, hfeed, bind_eq_error.mpr ?_⟩
    rcases bind_eq_error.mp h with ha | ⟨a, ha, h⟩
    · exact .inl ha
    · refine .inr ⟨a, ha, ?_⟩
      rcases bind_eq_error.mp h with hfinish | ⟨bytes, -, h⟩
      · exact hfinish
      · exact nomatch h

/-- A run makes the file rebuilt. -/
theorem Options.make_of_rebuild {name : String} (outputName : String)
    (hfeed : feed (Collection.step o.policy) {} (Tree.ofFile name b).preorder = .ok c)
    (hrebuild : rebuild o.policy o.level (Tree.ofFile name b) = .ok bytes) :
    ∃ report, o.make name outputName b = .ok (report, bytes) ∧ report.parsed = c.parsed ∧
      report.relabelled = c.relabelled := by
  have hp := pooled_of_file hfeed
  have hmatching := matching_file outputName o.level _ (Tree.ofFile_at _ _) (Tree.ofFile_sound _ _) hp
  obtain ⟨_, ha, rfl⟩ := hmatching.eq_ok hrebuild
  obtain ⟨a, ha, hfinish⟩ := bind_eq_ok.mp ha
  exact ⟨_, make_eq_ok.mpr ⟨c, a, hfeed, ha, hfinish, rfl⟩, rfl, rfl⟩

/-- A run that nobody disturbs ends well, with what it makes of its input, if the store takes the output. -/
theorem ends_run_of_make (hw : w.Undisturbed o) (hh : w.files.Holds input place b)
    (hmake : o.make (Files.fileName input) (Files.fileName output) b = .ok (report, bytes))
    (htakes : w.files.Takes w.tags output bytes files) :
    ∃ w', Ends (o.run input output) w report w' ∧ ({ w with files } : World).Carried o w' := by
  obtain ⟨c, a, hfeed, ha, hfinish, rfl⟩ := Options.make_eq_ok.mp hmake
  have hR := World.lasting_carried o
  have hk₁ := hR.reach w .collecting (.collecting input) hw
  obtain ⟨w₂, hcollect, hk₂⟩ := ends_collect_of_feed hk₁.undisturbed (hk₁.files ▸ hh) hfeed
  have hk₃ := (hk₁.trans hk₂).trans (hR.meet w₂ (.told (.collected c.parsed c.relabelled c.unlabelled)) hk₂.undisturbed)
  have hk₄ := hk₃.trans (hR.reach _ .writing (.writing output) hk₃.undisturbed)
  rw [← hk₄.files, ← hk₄.tags] at htakes
  rw [← hk₄.files] at hh
  obtain ⟨w₅, hwrite, hk₅⟩ := ends_writeOutput_of_feed hk₄.undisturbed hh ha hfinish htakes
  have hk₆ := hk₅.trans (hR.reach w₅ .closed (.wrote output bytes.length a.resources a.containers) hk₅.undisturbed)
  refine ⟨_, ?_, hk₆.undisturbed, hk₆.files, hk₆.tags.trans hk₄.tags⟩
  have htell : Ends (tell (.collected c.parsed c.relabelled c.unlabelled)) w₂ () _ := ends_tell.mpr rfl
  unfold Ends Options.run
  rw [outcome_setPhase_tell, outcome_bind_of_ends hcollect, outcome_bind_of_ends htell, outcome_setPhase_tell,
    outcome_bind_of_ends hwrite, outcome_setPhase_tell]
  rfl

/-- A run that nobody disturbs ends well, if every class can be relabelled, the file can be rebuilt and the
store takes the output. -/
theorem ends_run (hw : w.Undisturbed o) (hh : w.files.Holds input place b)
    (hfeed : feed (Collection.step o.policy) {} (Tree.ofFile (Files.fileName input) b).preorder = .ok c)
    (hrebuild : rebuild o.policy o.level (Tree.ofFile (Files.fileName input) b) = .ok bytes)
    (htakes : w.files.Takes w.tags output bytes files) :
    ∃ report w', Ends (o.run input output) w report w' ∧ report.parsed = c.parsed ∧
      report.relabelled = c.relabelled ∧ ({ w with files } : World).Carried o w' := by
  obtain ⟨report, hmake, hparsed, hrelabelled⟩ := Options.make_of_rebuild (Files.fileName output) hfeed hrebuild
  obtain ⟨w', hends, hcarried⟩ := ends_run_of_make hw hh hmake htakes
  exact ⟨report, w', hends, hparsed, hrelabelled, hcarried⟩

/-- A run that ends well has collected the classes of its input, and its output is the input rebuilt. -/
theorem steps_of_ends_run {w' : World} (hw : w.Unshared) (hh : w.files.Holds input place b)
    (h : Ends (o.run input output) w report w') :
    ∃ c target bytes, feed (Collection.step o.policy) {} (Tree.ofFile (Files.fileName input) b).preorder = .ok c ∧
      report.parsed = c.parsed ∧ rebuild o.policy o.level (Tree.ofFile (Files.fileName input) b) = .ok bytes ∧
      w'.files.Holds output target bytes := by
  have hR := World.lasting_kept
  obtain ⟨c, w₁, a, size, w₂, hcollect, hwrite, rfl, rfl⟩ := ends_run_steps h
  have hk₁ := hR.reach w .collecting (.collecting input) hw
  have hw₁ := hk₁.unshared hw
  rw [← hk₁.files] at hh
  have hfeed := feed_of_ends_collect (hw₁.steady hh) hcollect
  have hk₂ := (obeys_collect (P := fun _ => True) hR (fun _ _ => trivial) o input).of_ends hcollect hw₁
  have hw₂ := hk₂.unshared hw₁
  have hk₃ := hk₂.trans (hR.trans (hR.meet w₁ (.told (.collected c.parsed c.relabelled c.unlabelled)))
    (hR.reach _ .writing (.writing output)) hw₂)
  rw [← hk₃.files] at hh
  have hp := pooled_of_file hfeed
  obtain ⟨hw₄, target, bytes, hrebuild, hopen, hcontents⟩ :=
    ends_writeOutput (hk₃.unshared hw₁) hh.openFile (hh.contents.symm ▸ hp) hwrite
  have hk₄ := hR.reach w₂ .closed (.wrote output size a.resources a.containers) hw₄
  rw [hh.contents] at hrebuild
  rw [← hk₄.files] at hopen hcontents
  exact ⟨c, target, bytes, hfeed, rfl, hrebuild, hopen, hcontents⟩

/-! ## An archive with entries of each kind -/

/-- The world that holds these files, in which nobody else is. -/
def quietWorld (files : Files) : World where
  files

theorem undisturbed_quietWorld (o : Options) (files : Files) : (quietWorld files).Undisturbed o :=
  ⟨fun _ _ => rfl, fun _ _ => rfl, fun _ => ⟨rfl, fun _ _ => rfl⟩⟩

def otherLabel : ClassFile :=
  { ClassFile.sharedLabel with
    pool := ⟨#[none, some (.utf8 (Text.Modified.encode "SourceFile")), some (.classRef 3),
      some (.utf8 (Text.Modified.encode "A")), some (.utf8 (Text.Modified.encode "X.java"))]⟩
    attributes := [⟨1, Bytes.be16 4⟩] }

theorem parse_otherLabel : ClassFile.parse otherLabel.toBytes = .ok otherLabel := by
  cbv

def ownLabel : ClassFile :=
  otherLabel.relabelledAt 4 "A.java"

def noLabel : ClassFile :=
  { ClassFile.sharedLabel with attributes := [] }

def nestedArchive (c : ClassFile) : Bytes :=
  Zip.packAll [(⟨"N.class", by decide, by decide⟩, c.toBytes)]

/-- An archive with a class in an archive in it. Beside that are a class that is labelled as it should be, one
without a label and a text. -/
def sampleArchive (c : ClassFile) : Bytes :=
  Zip.packAll [(⟨"n.jar", by decide, by decide⟩, nestedArchive c),
    (⟨"K.class", by decide, by decide⟩, ownLabel.toBytes), (⟨"U.class", by decide, by decide⟩, noLabel.toBytes),
    (⟨"t.txt", by decide, by decide⟩, [104, 105])]

def sampleFile : Bytes :=
  sampleArchive otherLabel

/-- What the archive is rebuilt to. -/
def sampleOutput : Bytes :=
  sampleArchive ownLabel

/-- An entry as it is read from the archive that it was stored in. -/
def storedEntry (name : Zip.EntryName) (data : Bytes) (offset : UInt32) (index : Nat) : Zip.Entry :=
  ((Zip.Call.add (.ofName name .stored) data).header .standard).recorded offset index

def nestedEntry : Zip.Entry :=
  storedEntry ⟨"n.jar", by decide, by decide⟩ (nestedArchive otherLabel) 0 0

def otherEntry : Zip.Entry :=
  storedEntry ⟨"N.class", by decide, by decide⟩ otherLabel.toBytes 0 0

def ownEntry : Zip.Entry :=
  storedEntry ⟨"K.class", by decide, by decide⟩ ownLabel.toBytes 208 1

def bareEntry : Zip.Entry :=
  storedEntry ⟨"U.class", by decide, by decide⟩ noLabel.toBytes 306 2

def textEntry : Zip.Entry :=
  storedEntry ⟨"t.txt", by decide, by decide⟩ [104, 105] 387 3

def sampleTree : Tree :=
  .container ⟨⟨"in.zip", []⟩, [], .zip, none, []⟩
    [.container ⟨⟨"in.zip", ["n.jar"]⟩, [0], .jar, some nestedEntry, []⟩
      [.leaf ⟨⟨"in.zip", ["n.jar", "N.class"]⟩, [0, 0], .packed otherEntry otherLabel.toBytes⟩],
    .leaf ⟨⟨"in.zip", ["K.class"]⟩, [1], .packed ownEntry ownLabel.toBytes⟩,
    .leaf ⟨⟨"in.zip", ["U.class"]⟩, [2], .packed bareEntry noLabel.toBytes⟩,
    .leaf ⟨⟨"in.zip", ["t.txt"]⟩, [3], .packed textEntry [104, 105]⟩]

def nestedDirectory : Zip.Archive :=
  ⟨173, 98, #[otherEntry], []⟩

def sampleDirectory : Zip.Archive :=
  ⟨654, 424, #[nestedEntry, ownEntry, bareEntry, textEntry], []⟩

set_option maxRecDepth 100000 in
/-- Both archives, and what is read of them. -/
theorem parse_sampleFile :
    Zip.Archive.parse sampleFile = .ok sampleDirectory ∧
      Zip.Archive.parse (nestedArchive otherLabel) = .ok nestedDirectory ∧
      nestedEntry.unpack (nestedArchive otherLabel) = .ok (nestedArchive otherLabel) ∧
      sampleDirectory.readRaw sampleFile 0 = .ok ⟨[], nestedArchive otherLabel⟩ ∧
      sampleDirectory.readRaw sampleFile 1 = .ok ⟨[], ownLabel.toBytes⟩ ∧
      sampleDirectory.readRaw sampleFile 2 = .ok ⟨[], noLabel.toBytes⟩ ∧
      sampleDirectory.readRaw sampleFile 3 = .ok ⟨[], [104, 105]⟩ ∧
      nestedDirectory.readRaw (nestedArchive otherLabel) 0 = .ok ⟨[], otherLabel.toBytes⟩ := by
  decide +kernel

theorem ofFile_sampleFile : Tree.ofFile "in.zip" sampleFile = sampleTree := by
  obtain ⟨hfile, hnested, hunpack, hn, hK, hU, ht, hN⟩ := parse_sampleFile
  have hroot : (Container.UnpackPlan.forInput "in.zip").stage? "in.zip" true 0 = some (.own .zip, 0) := by
    decide +kernel
  have hjar : (Container.UnpackPlan.forInput "in.zip").stage? "n.jar" false 1 = some (.nested .jar, 2) := by
    decide +kernel
  have hclass : (Container.UnpackPlan.forInput "in.zip").stage? "N.class" false 3 = none := by decide +kernel
  have hnone : ∀ name ∈ ["K.class", "U.class", "t.txt"],
      (Container.UnpackPlan.forInput "in.zip").stage? name false 1 = none := by decide +kernel
  have hinner : Tree.entryTrees (Container.UnpackPlan.forInput "in.zip") ⟨"in.zip", ["n.jar"]⟩ [0] 2
      nestedDirectory (nestedArchive otherLabel) = [_] :=
    congrArg (fun t => [t]) (Tree.ofEntry_unopened hN hclass)
  have houter : Tree.entryTrees (Container.UnpackPlan.forInput "in.zip") ⟨"in.zip", []⟩ [] 0
      sampleDirectory sampleFile = [_, _, _, _] :=
    congrArg₂ List.cons (Tree.ofEntry_opened hn hjar hunpack)
      (congrArg₂ List.cons (Tree.ofEntry_unopened hK (hnone "K.class" (by simp)))
        (congrArg₂ List.cons (Tree.ofEntry_unopened hU (hnone "U.class" (by simp)))
          (congrArg (fun t => [t]) (Tree.ofEntry_unopened ht (hnone "t.txt" (by simp))))))
  rw [Tree.ofContainer_of_parse hnested] at houter
  simp only [Tree.ofFile, hroot, Tree.ofContainer_of_parse hfile]
  refine congrArg (Tree.container ⟨⟨"in.zip", []⟩, [], .zip, none, []⟩) (houter.trans ?_)
  exact congrArg (fun ts => Tree.container _ ts :: _) hinner

theorem exists_feed_sampleFile :
    ∃ c, feed (Collection.step {}) {} (Tree.ofFile "in.zip" sampleFile).preorder = .ok c := by
  rw [ofFile_sampleFile]
  have hread : sampleTree.preorder.all Except.isOk = true := by decide +kernel
  have hpatch : ∀ l ∈ leaves sampleTree.preorder, l.isClass = true → (patch {} l).isOk = true := by decide +kernel
  refine exists_feed_collection (fun e he => ?_) (fun l hl hc => ?_) {}
  · exact nomatch List.all_eq_true.mp hread _ he
  · have hok := hpatch l hl hc
    cases hp : patch {} l with
    | error e => exact nomatch hp ▸ hok
    | ok p => exact ⟨p, rfl⟩

set_option maxRecDepth 100000 in
theorem rebuild_sampleTree : rebuild {} .standard sampleTree = .ok sampleOutput := by
  decide +kernel

def archiveFiles (b : Bytes) : Files where
  nodes := [(["in.zip"], .file b), (["once"], .directory), (["twice"], .directory)]

theorem contents_archiveFiles (b : Bytes) : (archiveFiles b).contents ["in.zip"] = b := rfl

def sampleWorld : World :=
  quietWorld (archiveFiles sampleFile)

theorem holds_sampleWorld : sampleWorld.files.Holds "in.zip" ["in.zip"] sampleFile :=
  ⟨by decide +kernel, contents_archiveFiles sampleFile⟩

theorem ends_run_sampleWorld (hpolicy : o.policy = {}) (hlevel : o.level = .standard)
    (htakes : sampleWorld.files.Takes sampleWorld.tags output sampleOutput files) :
    ∃ report w', Ends (o.run "in.zip" output) sampleWorld report w' ∧
      ({ sampleWorld with files } : World).Carried o w' := by
  have hname : Files.fileName "in.zip" = "in.zip" := by decide +kernel
  obtain ⟨c, hfeed⟩ := exists_feed_sampleFile
  have hrebuild := rebuild_sampleTree
  rw [← ofFile_sampleFile, ← hname, ← hpolicy, ← hlevel] at hrebuild
  rw [← hname, ← hpolicy] at hfeed
  obtain ⟨report, w', hends, -, -, hcarried⟩ := ends_run (undisturbed_quietWorld o _) holds_sampleWorld hfeed hrebuild
    htakes
  exact ⟨report, w', hends, hcarried⟩

end Relabel
end SourceLabel
