import SourceLabel.Proofs.Relabel.Again
import SourceLabel.Proofs.Text.Lossy
import SourceLabel.Proofs.Zip.Hidden

/-!
# What names tell

What an entry is, is told by how its name ends, and the name is what was decoded of bytes that need not be
well-formed text. All ends that count are ASCII, so the bytes tell the same. The bytes are written back unchanged, so
a walk over the rebuilt file meets under each name what it met under it before: a container of the same kind, a
directory, a class, or none of these.
-/
namespace SourceLabel

open Container

/-! ## Ends of bytes -/

/-- Does a stage open an entry if all that is known of it is how the bytes of its name end? -/
def Container.Stage.opensBytes (raw : Bytes) : Stage → Bool
  | .own _ => false
  | .nested kind => Text.bytesEndWith raw kind.extension

/-- All that the name of an entry tells is told by how these bytes end. -/
structure Zip.Entry.ToldBy (e : Zip.Entry) (raw : Bytes) : Prop where
  directory : e.isDirectory = Text.bytesEndWith raw "/"
  classFile : ∀ path key localExtra payload,
    (⟨NestedPath.child path e.name.text, key, .packed { e with localExtra } payload⟩ : Walk.Leaf).isClass =
      Text.bytesEndWith raw ".class"
  stage : ∀ (plan : UnpackPlan) start, plan.stage? e.name.text false start =
    (plan.stages.zipIdx.drop start).find? fun s => s.1.opensBytes raw

/-- A name with an end that is not that of a directory does not name one. -/
theorem Text.not_slash_and_endsWith (s : String) {suffix : String}
    (hlast : ∃ c, suffix.toList.getLast? = some c ∧ c ≠ '/') :
    (!endsWith s "/" && endsWith s suffix) = endsWith s suffix := by
  obtain ⟨c, hlast, hc⟩ := hlast
  refine Bool.and_eq_right_iff_imp.mpr fun h => ?_
  rw [Bool.not_eq_true']
  refine Bool.eq_false_of_not_eq_true fun hslash => hc ?_
  obtain ⟨front, hs⟩ := endsWith_iff.mp h
  obtain ⟨front', hs'⟩ := endsWith_iff.mp hslash
  have hends := congrArg List.getLast? (hs.trans hs'.symm)
  rw [List.getLast?_append, hlast] at hends
  change some c = (front' ++ ['/']).getLast? at hends
  rw [List.getLast?_concat] at hends
  exact Option.some.inj hends

theorem NestedPath.name_child (path : NestedPath) (entry : String) : (path.child entry).name = entry := by
  simp [name, child]

namespace Zip.Entry

variable {e : Entry} {b rest : Bytes} {offset index : Nat}

theorem toldBy_of_parse (h : parse b offset index = .ok (e, rest)) : e.ToldBy e.rawName := by
  have hends {suffix : String} (hs : ∀ c ∈ suffix.toList, c.toNat < 0x80) :
      Text.endsWith e.name.text suffix = Text.bytesEndWith e.rawName suffix := by
    rw [← (asRead_of_parse h).name]
    exact Text.endsWith_ofUtf8Lossy hs _
  refine ⟨hends (by simp), fun path key localExtra payload => ?_, fun plan start => ?_⟩
  · rw [← hends (by simp), Walk.Leaf.isClass, NestedPath.name_child]
    exact Text.not_slash_and_endsWith _ ⟨'s', rfl, by decide⟩
  · unfold UnpackPlan.stage?
    congr 1
    funext s
    obtain ⟨stage, position⟩ := s
    cases stage with
    | own kind => rfl
    | nested kind =>
      have hkind : ∀ c ∈ kind.extension.toList, c.toNat < 0x80 := by
        cases kind <;> simp [Kind.extension, Kind.label]
      have hlast : ∃ c, kind.extension.toList.getLast? = some c ∧ c ≠ '/' := by
        cases kind <;> exact ⟨_, rfl, by decide⟩
      exact (Text.not_slash_and_endsWith _ hlast).trans (hends hkind)

end Zip.Entry

/-! ## What a walk sees -/

namespace Walk

/-- What a walk meets, as far as names tell. -/
inductive Sight where
  | enter (path : NestedPath) (key : EntryKey) (rawName? : Option Bytes) (kind : Kind)
  | leaf (path : NestedPath) (key : EntryKey) (rawName? : Option Bytes) (isDirectory isClass : Bool)
  | leave (path : NestedPath) (key : EntryKey)
deriving DecidableEq, Repr

def Event.sight : Event → Sight
  | .enter c => .enter c.path c.key (c.header?.map (·.rawName)) c.kind
  | .leaf l => .leaf l.path l.key (l.header?.map (·.rawName)) l.isDirectory l.isClass
  | .leave c => .leave c.path c.key

namespace Tree

/-- All that a walk over the tree sees, up to the end. -/
def sights (t : Tree) : List (Except Error Sight) :=
  t.preorder.map (Except.map Event.sight)

/-- Of an entry that is not opened, its place and its name are seen. -/
theorem sights_packed {header header' : Zip.Entry} (hname : header'.name = header.name)
    (hrawName : header'.rawName = header.rawName) (path : NestedPath) (key : EntryKey) (raw raw' : Bytes) :
    (leaf ⟨path, key, .packed header' raw'⟩).sights = (leaf ⟨path, key, .packed header raw⟩).sights := by
  simp only [sights, preorder, List.map_cons, List.map_nil, Except.map, Event.sight, Leaf.isClass, Leaf.isDirectory,
    Leaf.header?, Option.map_some, Zip.Entry.isDirectory, hname, hrawName]

end Tree
end Walk

/-! ## Walking over what was rebuilt -/

namespace Relabel

open Walk Tree Zip

variable {policy : Policy} {level : Deflate.Level}

/-- What a walk meets of what a tree was rebuilt to, level by level. -/
inductive MetAgain (policy : Policy) (level : Deflate.Level) : Tree → Tree → Prop
  /-- What was not opened is seen again. -/
  | leaf {l : Leaf} {t' : Tree} (h : t'.sights = (Tree.leaf l).sights) : MetAgain policy level (.leaf l) t'
  /-- A container is entered again, and its entries are met again one for one. -/
  | entered {c c' : Opened} {ts ts' : List Tree} (hsight : Event.sight (.enter c') = Event.sight (.enter c))
      (h : List.Forall₂ (MetAgain policy level) ts ts') : MetAgain policy level (.container c ts) (.container c' ts')
  /-- The archive that a container was rebuilt to is refused. -/
  | refused {c : Opened} {ts : List Tree} {bytes : Bytes} {fault : Error}
      (hrebuild : rebuild policy level (.container c ts) = .ok bytes) (hparse : Archive.parse bytes = .error fault) :
      MetAgain policy level (.container c ts) (.broken (fault.inContainer c.path.toString))
  /-- The archive that a container was rebuilt to is read with another comment. It is a large one. -/
  | hidden {c c' : Opened} {ts ts' : List Tree} {bytes : Bytes} {archive : Archive}
      (hrebuild : rebuild policy level (.container c ts) = .ok bytes) (hparse : Archive.parse bytes = .ok archive)
      (hcomment : archive.comment ≠ c.comment) (hsize : 0x4B500000 ≤ bytes.length) :
      MetAgain policy level (.container c ts) (.container c' ts')

/-- The entries of an archive are met again in the archive that they are rebuilt to. -/
def EntriesMetAgain (policy : Policy) (level : Deflate.Level) (plan : UnpackPlan) (stage : Nat) : Prop :=
  ∀ path key archive b w done archive', Archive.parse b = .ok archive →
    addAll policy level { level, comment := archive.comment } (entryTrees plan path key stage archive b) = .ok w →
    w.finish = .ok done → Archive.parse done.bytes = .ok archive' → archive'.comment = archive.comment →
    List.Forall₂ (MetAgain policy level) (entryTrees plan path key stage archive b)
      (entryTrees plan path key stage archive' done.bytes)

section

variable {plan : UnpackPlan} {path : NestedPath} {key : EntryKey} {stage index : Nat} {archive archive' : Archive}
  {b b' : Bytes} {entry : Entry}

theorem rawName_header (c : Call) : (c.header level).rawName = c.given.rawName := by
  cases c <;> rfl

/-- An archive that a container was rebuilt to is entered again, unless readers do not find it again. -/
theorem metAgain_container (h : EntriesMetAgain policy level plan stage) {kind : Kind} {header? header?' : Option Entry}
    (hname : header?'.map (·.rawName) = header?.map (·.rawName)) {w : Writer} {done : Finished}
    (hparse : Archive.parse b = .ok archive)
    (hw : addAll policy level { level, comment := archive.comment } (entryTrees plan path key stage archive b) = .ok w)
    (hfinish : w.finish = .ok done) :
    MetAgain policy level
      (.container ⟨path, key, kind, header?, archive.comment⟩ (entryTrees plan path key stage archive b))
      (ofContainer plan path key kind header?' stage done.bytes) := by
  have hrebuild : rebuild policy level
      (.container ⟨path, key, kind, header?, archive.comment⟩ (entryTrees plan path key stage archive b)) =
        .ok done.bytes := rebuild_container_eq_ok.mpr ⟨w, done, hw, hfinish, rfl⟩
  cases hparse' : Archive.parse done.bytes with
  | error fault =>
    rw [ofContainer, hparse', ofAttempt_error]
    exact .refused hrebuild hparse'
  | ok archive' =>
    rw [ofContainer_of_parse hparse']
    by_cases hcomment : archive'.comment = archive.comment
    · refine .entered ?_ (h path key archive b w done archive' hparse hw hfinish hparse' hcomment)
      simp only [Event.sight, hname]
    · obtain ⟨calls, hcalls, htaken⟩ := addAll_eq_ok.mp hw
      obtain ⟨hholds, -, hset⟩ := htaken.holds (Writer.holds_nil level archive.comment)
      have hfar := hholds.far_of_hidden hfinish hparse' (fun he => hcomment (he.trans hset))
        (hset ▸ Archive.not_endsComment_of_parse hparse)
      have hlength := Writer.length_finish hfinish
      rw [Writer.recordStart] at hlength
      exact .hidden hrebuild hparse' hcomment (by omega)

/-- An entry is met again in what a call has written for it. -/
theorem metAgain_entry
    (ih : ∀ position, stage < position → position < plan.stages.length → EntriesMetAgain policy level plan position)
    {c : Call} (hcall : call policy level (ofEntry plan path key stage archive b index entry) = .ok c)
    (hsized : c.Sized level) (localOffset : UInt32)
    (hraw' : archive'.readRaw b' index = .ok ⟨(c.header level).localExtra, c.payload level⟩) :
    MetAgain policy level (ofEntry plan path key stage archive b index entry)
      (ofEntry plan path key stage archive' b' index ((c.header level).recorded localOffset index)) := by
  obtain ⟨localExtra, hgiven⟩ := given_of_call hcall
  have hname : (c.header level).name = entry.name := by
    rw [name_header, hgiven]
  have hrawName : (c.header level).rawName = entry.rawName := by
    rw [rawName_header, hgiven]
  have htext : ((c.header level).recorded localOffset index).name.text = entry.name.text :=
    congrArg EntryName.text hname
  obtain ⟨raw, hraw, hs | ⟨opener, position, data, nested, hs, hunpack, hparse⟩⟩ :=
    ofEntry_cases (ne_broken_of_call hcall)
  · rw [ofEntry_unopened hraw hs, ofEntry_unopened hraw' (htext ▸ hs), htext]
    exact .leaf (sights_packed hname hrawName _ _ raw.data (c.payload level))
  · rw [ofEntry_opened hraw hs hunpack, ofContainer_of_parse hparse] at hcall ⊢
    obtain ⟨w, done, hw, hfinish, hc⟩ := (call_container_eq_ok rfl).mp hcall
    -- the payload of the call is unpacked to the archive that was finished, which the same stage opens
    have hunpack' : ((c.header level).reread localOffset index).unpack (c.payload level) = .ok done.bytes := by
      rw [← hc] at hsized ⊢
      exact Call.unpack_payload hsized localOffset index
    have hbounds := UnpackPlan.stage?_bounds hs
    rw [ofEntry_opened hraw' (htext ▸ hs) hunpack', htext]
    refine metAgain_container (ih position hbounds.1 hbounds.2) ?_ hparse hw hfinish
    exact congrArg some hrawName

end

/-- What is met of the archives of all stages, those of later stages first. -/
theorem entriesMetAgain (policy : Policy) (level : Deflate.Level) (plan : UnpackPlan) (stage : Nat) :
    EntriesMetAgain policy level plan stage := by
  induction hm : plan.stages.length - stage using Nat.strongRecOn generalizing stage with
  | _ m ih =>
    have hlater : ∀ position, stage < position → position < plan.stages.length →
        EntriesMetAgain policy level plan position :=
      fun position hlt hstages => ih _ (by omega) position rfl
    intro path key archive b w done archive' hparse hw hfinish hparse' hcomment'
    obtain ⟨calls, hcalls, htaken⟩ := addAll_eq_ok.mp hw
    obtain ⟨hholds, hsized, hcomment⟩ := htaken.holds (Writer.holds_nil level archive.comment)
    rw [List.nil_append] at hholds
    have hplain : ∀ item ∈ Call.items level calls, item.1.Plain := Call.plain_items (plain_given hparse hcalls)
    obtain rfl := hholds.eq_reopened hplain hfinish hparse' (hcomment'.trans hcomment.symm)
    exact forall₂_reopened hcalls hholds hfinish fun i hi hc offset hraw =>
      metAgain_entry hlater (call_getElem hcalls hi hc) (hsized _ (List.getElem_mem hc)) offset hraw

theorem metAgain_rebuild {name : String} {b bytes : Bytes} (h : rebuild policy level (ofFile name b) = .ok bytes) :
    MetAgain policy level (ofFile name b) (ofFile name bytes) := by
  simp only [ofFile] at h ⊢
  cases hs : (UnpackPlan.forInput name).stage? name true 0 with
  | none => exact .leaf rfl
  | some found =>
    obtain ⟨opener, position⟩ := found
    simp only [hs] at h ⊢
    cases hparse : Archive.parse b with
    | error e =>
      rw [ofContainer, hparse] at h
      cases h
    | ok archive =>
      rw [ofContainer_of_parse hparse] at h ⊢
      obtain ⟨w, done, hw, hfinish, rfl⟩ := rebuild_container_eq_ok.mp h
      exact metAgain_container (entriesMetAgain policy level _ position) rfl hparse hw hfinish

/-- Whatever the bytes of a name are, all that the name tells of an entry is told by how they end. And a walk over
a rebuilt file meets again what a walk over the file met: under the same names the same kinds of entries, level by
level, in each archive that readers find again. They may refuse one, and they may take another record for that of a
large one. -/
theorem names_told :
    (∀ b offset index e rest, Entry.parse b offset index = .ok (e, rest) → e.ToldBy e.rawName) ∧
      ∀ policy level name b bytes, rebuild policy level (ofFile name b) = .ok bytes →
        MetAgain policy level (ofFile name b) (ofFile name bytes) :=
  ⟨fun _ _ _ _ _ h => Entry.toldBy_of_parse h, fun _ _ _ _ _ h => metAgain_rebuild h⟩

/-- An archive without entries, under a name that breaks off within a character right before the extension. -/
def truncatedEntry : Entry where
  name := ⟨"\uFFFD.jar", by decide, by decide⟩
  rawName := [0xE2, 0x82] ++ Text.utf8 ".jar"
  method := .stored
  checksum := Checksum.of Writer.emptyRecord
  packedSize := 22
  size := 22

def truncatedFile : Bytes :=
  truncatedEntry.localHeader ++ Writer.emptyRecord ++ (truncatedEntry.centralHeader 0 ++
    (⟨1, 52, 58, []⟩ : EndRecord).toBytes)

/-- The entry is a container, since the bytes of its name end in the extension of one. -/
def truncatedTree : Tree :=
  .container ⟨⟨"x.zip", []⟩, [], .zip, none, []⟩
    [.container ⟨⟨"x.zip", ["\uFFFD.jar"]⟩, [0], .jar, some truncatedEntry, []⟩ []]

theorem ofFile_truncatedFile : ofFile "x.zip" (truncatedFile ++ [0]) = truncatedTree := by
  have hfile : Archive.parse (truncatedFile ++ [0]) = .ok ⟨133, 58, #[truncatedEntry], []⟩ := by decide +kernel
  have hnested : Archive.parse Writer.emptyRecord = .ok ⟨22, 0, #[], []⟩ := by decide +kernel
  have hraw : (⟨133, 58, #[truncatedEntry], []⟩ : Archive).readRaw (truncatedFile ++ [0]) 0 =
      .ok ⟨[], Writer.emptyRecord⟩ := by decide +kernel
  have hroot : (UnpackPlan.forInput "x.zip").stage? "x.zip" true 0 = some (.own .zip, 0) := by decide +kernel
  have hs : (UnpackPlan.forInput "x.zip").stage? truncatedEntry.name.text false 1 = some (.nested .jar, 2) := by
    decide +kernel
  have hunpack : truncatedEntry.unpack Writer.emptyRecord = .ok Writer.emptyRecord := by decide +kernel
  have hentry : ofEntry (UnpackPlan.forInput "x.zip") ⟨"x.zip", []⟩ [] 0 ⟨133, 58, #[truncatedEntry], []⟩
      (truncatedFile ++ [0]) 0 truncatedEntry = _ := ofEntry_opened hraw hs hunpack
  rw [ofContainer_of_parse hnested] at hentry
  simp only [ofFile, hroot, ofContainer_of_parse hfile]
  exact congrArg (fun t => Tree.container ⟨⟨"x.zip", []⟩, [], .zip, none, []⟩ [t]) hentry

theorem rebuild_truncatedTree : rebuild {} .standard truncatedTree = .ok truncatedFile := by
  decide +kernel

theorem names_told_truncated :
    Entry.parse (truncatedEntry.centralHeader 0) 0 0 = .ok (truncatedEntry, []) ∧
      truncatedEntry.ToldBy ([0xE2, 0x82] ++ Text.utf8 ".jar") ∧
      rebuild {} .standard (ofFile "x.zip" (truncatedFile ++ [0])) = .ok truncatedFile ∧
      MetAgain {} .standard (ofFile "x.zip" (truncatedFile ++ [0])) (ofFile "x.zip" truncatedFile) := by
  have hparse : Entry.parse (truncatedEntry.centralHeader 0) 0 0 = .ok (truncatedEntry, []) := by decide +kernel
  have hrebuild : rebuild {} .standard (ofFile "x.zip" (truncatedFile ++ [0])) = .ok truncatedFile :=
    ofFile_truncatedFile ▸ rebuild_truncatedTree
  exact ⟨hparse, names_told.1 _ _ _ _ _ hparse, hrebuild, names_told.2 _ _ _ _ _ hrebuild⟩

/-- A directory whose comment begins like a locator of wider numbers. -/
def markedDirectory : Entry where
  name := ⟨"d/", by decide, by decide⟩
  rawName := Text.utf8 "d/"
  method := .stored
  comment := Bytes.le32 EndRecord.locatorSignature ++ List.replicate 16 0

/-- An archive with this directory. Some bytes may lie between its headers and the end record. -/
def markedFile (gap : Bytes) : Bytes :=
  markedDirectory.localHeader ++ (markedDirectory.centralHeader 0 ++ (gap ++ (⟨1, 68, 32, []⟩ : EndRecord).toBytes))

/-- A gap is closed when a file is rebuilt. The comment of the last entry then stands where readers look for a
locator, and what was met in the file is not met any more. -/
theorem gap_unread :
    rebuild {} .standard (ofFile "in.jar" (markedFile [0])) = .ok (markedFile []) ∧
      (ofFile "in.jar" (markedFile [0])).sights =
        [.ok (.enter ⟨"in.jar", []⟩ [] none .jar),
          .ok (.leaf ⟨"in.jar", ["d/"]⟩ [0] (some (Text.utf8 "d/")) true false),
          .ok (.leave ⟨"in.jar", []⟩ [])] ∧
      (ofFile "in.jar" (markedFile [])).sights =
        [.error (.malformedContainer "in.jar" "Unsupported feature: zip64")] := by
  have hfile : Archive.parse (markedFile [0]) = .ok ⟨123, 32, #[markedDirectory], []⟩ := by decide +kernel
  have hclosed : Archive.parse (markedFile []) = .error (.unsupportedFeature .zip64) := by decide +kernel
  have hraw : (⟨123, 32, #[markedDirectory], []⟩ : Archive).readRaw (markedFile [0]) 0 = .ok ⟨[], []⟩ := by
    decide +kernel
  have hroot : (UnpackPlan.forInput "in.jar").stage? "in.jar" true 0 = some (.own .jar, 0) := by decide +kernel
  have hs : (UnpackPlan.forInput "in.jar").stage? markedDirectory.name.text false 1 = none := by decide +kernel
  have hentry : ofEntry (UnpackPlan.forInput "in.jar") ⟨"in.jar", []⟩ [] 0 ⟨123, 32, #[markedDirectory], []⟩
      (markedFile [0]) 0 markedDirectory = _ := ofEntry_unopened hraw hs
  have htree : ofFile "in.jar" (markedFile [0]) = .container ⟨⟨"in.jar", []⟩, [], .jar, none, []⟩
      [.leaf ⟨⟨"in.jar", ["d/"]⟩, [0], .packed markedDirectory []⟩] := by
    simp only [ofFile, hroot, ofContainer_of_parse hfile]
    exact congrArg (fun t => Tree.container ⟨⟨"in.jar", []⟩, [], .jar, none, []⟩ [t]) hentry
  refine ⟨?_, ?_, ?_⟩
  · rw [htree]
    decide +kernel
  · rw [htree]
    decide +kernel
  · simp only [ofFile, hroot]
    rw [ofContainer, hclosed, ofAttempt_error]
    decide +kernel

end Relabel
end SourceLabel
