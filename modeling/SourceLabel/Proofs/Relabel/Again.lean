import SourceLabel.Proofs.Relabel.Calls
import SourceLabel.Proofs.Relabel.Settled
import SourceLabel.Proofs.Relabel.Tally
import SourceLabel.Proofs.Walk.Sound
import SourceLabel.Proofs.Zip.Reread

/-!
# Rebuilding what was rebuilt

The bytes that a file is rebuilt to are a file again, with a tree of the same shape: each entry of a container
is read back from the call that it stands for, and the contents of a nested container are the archive that was
finished for it. If every label settles and every archive that was written is found again, no class of the new
tree changes, each of its entries stands for the call that writes the same bytes once more, and so the file is
rebuilt to itself.
-/
namespace SourceLabel.Relabel

open Walk Tree Result Zip

/-! ## Traversals -/

def classes (events : List (Except Error Event)) : Nat :=
  (leaves events).countP Leaf.isClass

@[simp] theorem classes_append (xs ys : List (Except Error Event)) : classes (xs ++ ys) = classes xs + classes ys := by
  unfold classes
  simp

/-- Everything can be read, and nothing is to be replaced. -/
structure Quiet (policy : Policy) (events : List (Except Error Event)) : Prop where
  readable : ∀ e, .error e ∉ events
  kept : ∀ l ∈ leaves events, replacement policy l = .ok none

variable {policy : Policy} {level : Deflate.Level} {events xs ys : List (Except Error Event)}

theorem Quiet.append (hx : Quiet policy xs) (hy : Quiet policy ys) : Quiet policy (xs ++ ys) := by
  constructor
  · intro e he
    rcases List.mem_append.mp he with he | he
    · exact hx.readable e he
    · exact hy.readable e he
  · intro l hl
    rw [leaves_append] at hl
    rcases List.mem_append.mp hl with hl | hl
    · exact hx.kept l hl
    · exact hy.kept l hl

theorem quiet_leaf {l : Leaf} (h : replacement policy l = .ok none) : Quiet policy [.ok (.leaf l)] :=
  ⟨fun e => by simp, fun l' hl' => List.mem_singleton.mp hl' ▸ h⟩

theorem quiet_other {event : Event} (h : ∀ l, event ≠ .leaf l) : Quiet policy [.ok event] := by
  refine ⟨fun e => by simp, fun l hl => ?_⟩
  cases event with
  | leaf l' => exact absurd rfl (h l')
  | enter c | leave c => exact nomatch hl

theorem parsed_of_feed {c c' : Collection} (h : feed (Collection.step policy) c events = .ok c') :
    c'.parsed = c.parsed + classes events :=
  (counts_of_feed h).parsed

theorem patch_of_replacement {l : Leaf} (h : replacement policy l = .ok none) (hc : l.isClass = true) :
    ∃ p, patch policy l = .ok p ∧ p.change ≠ .changed := by
  unfold replacement at h
  rw [if_pos hc] at h
  obtain ⟨p, hp, hr⟩ := bind_eq_ok.mp h
  refine ⟨p, hp, fun hchange => ?_⟩
  rw [if_pos hchange] at hr
  exact nomatch hr

/-- The first pass over events that ask for nothing ends well, and relabels nothing. -/
theorem Quiet.feed (h : Quiet policy events) (c : Collection) :
    ∃ c', feed (Collection.step policy) c events = .ok c' ∧ c'.relabelled = c.relabelled := by
  induction events generalizing c with
  | nil => exact ⟨c, rfl, rfl⟩
  | cons event events ih =>
    have hrest : Quiet policy events := by
      refine ⟨fun e he => h.readable e (List.mem_cons_of_mem _ he), fun l hl => h.kept l ?_⟩
      rw [leaves_split]
      exact List.mem_append_right _ hl
    cases event with
    | error e => exact absurd List.mem_cons_self (h.readable e)
    | ok event =>
      cases event with
      | enter container | leave container => exact ih hrest c
      | leaf l =>
        by_cases hc : l.isClass = true
        · obtain ⟨p, hp, hchange⟩ := patch_of_replacement (h.kept l List.mem_cons_self) hc
          obtain ⟨c', hfeed, hsame⟩ := ih hrest (c.take l p)
          refine ⟨c', ?_, hsame.trans (if_neg hchange)⟩
          rw [Relabel.feed]
          simp only [Collection.step, if_pos hc, hp]
          exact hfeed
        · obtain ⟨c', hfeed, hsame⟩ := ih hrest c
          refine ⟨c', ?_, hsame⟩
          rw [Relabel.feed]
          simp only [Collection.step, if_neg hc]
          exact hfeed

/-! ## When a file is rebuilt to itself -/

mutual

/-- Rebuilding has nothing in it that keeps the output from being rebuilt to itself: the labels that are given
settle, and readers find every archive that is written. -/
def Repeatable (policy : Policy) (level : Deflate.Level) : Tree → Prop
  | .leaf l => ∀ data c p, l.isClass = true → l.contents = .ok data → ClassFile.parse data = .ok c →
      relabel policy l.path c = .ok p → p.change = .changed → Settled policy c
  | .container c entries =>
    AllRepeatable policy level entries ∧
      ∀ w done, addAll policy level { level, comment := c.comment } entries = .ok w → w.finish = .ok done →
        w.Reopens done
  | .broken _ => True

def AllRepeatable (policy : Policy) (level : Deflate.Level) : List Tree → Prop
  | [] => True
  | t :: ts => Repeatable policy level t ∧ AllRepeatable policy level ts

end

theorem allRepeatable_iff {ts : List Tree} :
    AllRepeatable policy level ts ↔ ∀ t ∈ ts, Repeatable policy level t := by
  induction ts with
  | nil => simp [AllRepeatable]
  | cons t ts ih => simp [AllRepeatable, ih]

theorem repeatable_leaf_of_kept {l : Leaf} (h : replacement policy l = .ok none) :
    Repeatable policy level (.leaf l) := by
  intro data c p hc hdata hparse hp hchange
  obtain ⟨p', hp', hkept⟩ := patch_of_replacement h hc
  obtain rfl := Except.ok.inj (hp'.symm.trans ((patch_of_parse hdata hparse policy).trans hp))
  exact absurd hchange hkept

theorem repeatable_leaf_of_settled {l : Leaf} {data : Bytes} {c : ClassFile} (hl : l.contents = .ok data)
    (hparse : ClassFile.parse data = .ok c) (hc : Settled policy c) : Repeatable policy level (.leaf l) := by
  intro data' c' p _ hdata hparse' _ _
  obtain rfl := Except.ok.inj (hl.symm.trans hdata)
  obtain rfl := Except.ok.inj (hparse.symm.trans hparse')
  exact hc

/-- Whether readers find the directory of the archive that entries are rebuilt to, if the archive has no comment. -/
def opensAgain (policy : Policy) (level : Deflate.Level) (ts : List Tree) : Bool :=
  match addAll policy level { level } ts with
  | .error _ => true
  | .ok w =>
    match w.finish with
    | .error _ => true
    | .ok done => w.Narrow && !EndRecord.hasLocator done.bytes w.recordStart

theorem repeatable_container {o : Opened} {ts : List Tree} (hcomment : o.comment = [])
    (hts : AllRepeatable policy level ts) (h : opensAgain policy level ts = true) :
    Repeatable policy level (.container o ts) := by
  refine ⟨hts, fun w done hw hfinish => ?_⟩
  rw [hcomment] at hw
  have hbare : w.comment = [] := comment_of_addAll hw
  simp only [opensAgain, hw, hfinish, Bool.and_eq_true, decide_eq_true_eq, Bool.not_eq_true'] at h
  exact Writer.reopens_of_no_comment hfinish hbare h.1 h.2

/-- The tree of what was rebuilt asks for nothing, and has the classes of the tree before. -/
structure Redone (policy : Policy) (t t' : Tree) : Prop where
  quiet : Quiet policy t'.preorder
  count : classes t'.preorder = classes t.preorder

/-! ## Entries that are not opened -/

/-- An entry that got what it should get is not replaced again. -/
theorem replacement_again (hd : policy.Dotted) {l l' : Leaf} {data? : Option Bytes}
    (h : replacement policy l = .ok data?) (hr : Repeatable policy level (.leaf l)) (hpath : l'.path = l.path)
    (hclass : l'.isClass = l.isClass) (hcontents : l'.contents = data?.elim l.contents .ok) :
    replacement policy l' = .ok none := by
  unfold replacement at h ⊢
  rw [hclass]
  by_cases hc : l.isClass = true
  · rw [if_pos hc] at h ⊢
    obtain ⟨p, hp, hdata⟩ := bind_eq_ok.mp h
    by_cases hchange : p.change = .changed
    · rw [if_pos hchange] at hdata
      obtain rfl := Except.ok.inj hdata
      obtain ⟨data, c, hl, hparse, hp⟩ := parse_of_patch hp
      have hs := hr data c p hc hl hparse hp hchange
      obtain ⟨c', p', hparse', hp', hchange'⟩ :=
        relabel_again hd (ClassFile.parse_eq_ok_iff.mp hparse).1 hs hp hchange
      rw [patch_of_parse hcontents hparse', hpath, hp']
      simp only [bind, Except.bind, if_neg hchange']
      rfl
    · rw [if_neg hchange] at hdata
      obtain rfl := Except.ok.inj hdata
      have hsame : patch policy l' = .ok p := by
        rw [← hp]
        unfold patch
        rw [hcontents, hpath]
        rfl
      rw [hsame]
      simp only [bind, Except.bind, if_neg hchange]
      rfl
  · rw [if_neg hc]

theorem redone_leaf {l l' : Leaf} (hclass : l'.isClass = l.isClass) (h : replacement policy l' = .ok none) :
    Redone policy (.leaf l) (.leaf l') := by
  refine ⟨quiet_leaf h, ?_⟩
  unfold classes
  simp [List.countP_singleton, hclass]

/-- The tree of an entry that was rebuilt asks for nothing, and stands for the call that writes the same again. -/
structure Again (policy : Policy) (level : Deflate.Level) (t t' : Tree) : Prop extends Redone policy t t' where
  call : ∀ c, call policy level t = .ok c → ∃ c', call policy level t' = .ok c' ∧ c.Again level c'

def rereadLeaf (level : Deflate.Level) (l : Leaf) (c : Call) (localOffset : UInt32) (index : Nat) : Leaf :=
  { l with payload := .packed ((c.header level).reread localOffset index) (c.payload level) }

theorem name_header {level : Deflate.Level} (c : Call) : (c.header level).name = c.given.name := by
  cases c <;> rfl

theorem again_leaf (hd : policy.Dotted) {l : Leaf} {header : Entry} {raw : Bytes}
    (hl : l.payload = .packed header raw) {c : Call} (hcall : call policy level (.leaf l) = .ok c)
    (hr : Repeatable policy level (.leaf l)) (hsized : c.Sized level) (localOffset : UInt32) (index : Nat) :
    Again policy level (.leaf l) (.leaf (rereadLeaf level l c localOffset index)) := by
  obtain ⟨data?, hdata, hc⟩ := map_eq_ok.mp ((call_leaf hl).symm.trans hcall)
  have hname : c.given.name = header.name := by
    rw [← hc]
    cases data? <;> rfl
  have hclass : (rereadLeaf level l c localOffset index).isClass = l.isClass := by
    have hdirectory : ((c.header level).reread localOffset index).isDirectory = header.isDirectory :=
      congrArg EntryName.isDirectory ((name_header c).trans hname)
    simp only [Leaf.isClass, Leaf.isDirectory, Leaf.header?, rereadLeaf, hl, hdirectory]
  have hcontents : (rereadLeaf level l c localOffset index).contents = data?.elim l.contents .ok := by
    rw [← hc] at hsized ⊢
    unfold Leaf.contents
    cases data? with
    | none =>
      simp only [rereadLeaf, hl, Entry.unpack_reread]
      rfl
    | some data =>
      have hunpack := Call.unpack_payload hsized localOffset index
      simp only [rereadLeaf]
      exact mapError_eq_ok.mpr hunpack
  have hkept : replacement policy (rereadLeaf level l c localOffset index) = .ok none :=
    replacement_again hd hdata hr rfl hclass hcontents
  refine ⟨redone_leaf hclass hkept, fun c₁ hc₁ => ⟨_, ?_, .copied c₁ localOffset index⟩⟩
  obtain rfl := Except.ok.inj (hcall.symm.trans hc₁)
  rw [call_leaf rfl, hkept]
  rfl

/-! ## Containers -/

theorem redone_all {ts ts' : List Tree} (h : List.Forall₂ (Again policy level) ts ts') :
    Quiet policy (preorderAll ts') ∧ classes (preorderAll ts') = classes (preorderAll ts) := by
  induction h with
  | nil => exact ⟨⟨fun _ => List.not_mem_nil, fun _ h => absurd h List.not_mem_nil⟩, rfl⟩
  | cons hfirst _ ih =>
    obtain ⟨hquiet, hcount⟩ := ih
    refine ⟨hfirst.quiet.append hquiet, ?_⟩
    simp [preorderAll, hfirst.count, hcount]

theorem redone_container {c c' : Opened} {ts ts' : List Tree} (h : List.Forall₂ (Again policy level) ts ts') :
    Redone policy (.container c ts) (.container c' ts') := by
  obtain ⟨hquiet, hcount⟩ := redone_all h
  constructor
  · have henter : Quiet policy [.ok (.enter c')] := quiet_other nofun
    have hleave : Quiet policy [.ok (.leave c')] := quiet_other nofun
    exact henter.append (hquiet.append hleave)
  · unfold classes at hcount ⊢
    simp [hcount]

/-- Entries that stand for the same calls again make the same archive. -/
theorem rebuilt_again {ts ts' : List Tree} (h : List.Forall₂ (Again policy level) ts ts') {comment : Bytes}
    {w : Writer} (hw : addAll policy level { level, comment } ts = .ok w) {done : Finished}
    (hfinish : w.finish = .ok done) :
    ∃ w' done', addAll policy level { level, comment } ts' = .ok w' ∧ w'.finish = .ok done' ∧
      done'.bytes = done.bytes := by
  obtain ⟨calls, hcalls, htaken⟩ := addAll_eq_ok.mp hw
  have hagain : ∃ calls', List.Forall₂ (fun t c => call policy level t = .ok c) ts' calls' ∧
      List.Forall₂ (Call.Again level) calls calls' := by
    clear hw htaken
    induction h generalizing calls with
    | nil =>
      cases hcalls
      exact ⟨[], .nil, .nil⟩
    | cons hfirst _ ih =>
      cases hcalls with
      | cons hcall hcalls =>
        obtain ⟨c', hcall', hsame⟩ := hfirst.call _ hcall
        obtain ⟨calls', hcalls', hrest⟩ := ih _ hcalls
        exact ⟨c' :: calls', .cons hcall' hcalls', .cons hsame hrest⟩
  obtain ⟨calls', hcalls', hsame⟩ := hagain
  obtain ⟨w', htaken', hlike⟩ := htaken.again hsame (.refl _)
  obtain ⟨done', hfinish', hbytes⟩ := hlike.finish hfinish
  exact ⟨w', done', addAll_eq_ok.mpr ⟨calls', hcalls', htaken'⟩, hfinish', hbytes⟩

/-- The archive that the entries of an opened archive are rebuilt to is opened, with entries that stand for
the same calls again. -/
def ArchivesAgain (policy : Policy) (level : Deflate.Level) (plan : Container.UnpackPlan) (stage : Nat) : Prop :=
  ∀ path key archive b w done, Archive.parse b = .ok archive →
    AllRepeatable policy level (entryTrees plan path key stage archive b) →
    addAll policy level { level, comment := archive.comment } (entryTrees plan path key stage archive b) = .ok w →
    w.finish = .ok done → w.Reopens done →
    ∃ archive', Archive.parse done.bytes = .ok archive' ∧ archive'.comment = archive.comment ∧
      List.Forall₂ (Again policy level) (entryTrees plan path key stage archive b)
        (entryTrees plan path key stage archive' done.bytes)

section

variable {plan : Container.UnpackPlan} {path : NestedPath} {key : EntryKey} {stage index : Nat}
  {archive archive' : Archive} {b b' : Bytes} {entry : Entry}

theorem ne_broken_of_call {t : Tree} {c : Call} (h : call policy level t = .ok c) (e : Error) : t ≠ .broken e := by
  rintro rfl
  exact nomatch h

theorem given_of_call {c : Call} (h : call policy level (ofEntry plan path key stage archive b index entry) = .ok c) :
    ∃ localExtra, c.given = { entry with localExtra } := by
  obtain ⟨raw, hraw, hs | ⟨opener, position, data, nested, hs, hunpack, hparse⟩⟩ := ofEntry_cases (ne_broken_of_call h)
  · rw [ofEntry_unopened hraw hs] at h
    obtain ⟨data?, -, rfl⟩ := map_eq_ok.mp ((call_leaf rfl).symm.trans h)
    exact ⟨raw.localExtra, by cases data? <;> rfl⟩
  · rw [ofEntry_opened hraw hs hunpack, ofContainer_of_parse hparse] at h
    obtain ⟨w, done, -, -, rfl⟩ := (call_container_eq_ok rfl).mp h
    exact ⟨raw.localExtra, rfl⟩

/-- An entry that is read of what a call has written for an entry stands for the same call again. -/
theorem again_entry (hd : policy.Dotted)
    (ih : ∀ position, stage < position → position < plan.stages.length → ArchivesAgain policy level plan position)
    {c : Call} (hcall : call policy level (ofEntry plan path key stage archive b index entry) = .ok c)
    (hr : Repeatable policy level (ofEntry plan path key stage archive b index entry)) (hsized : c.Sized level)
    (localOffset : UInt32)
    (hraw' : archive'.readRaw b' index = .ok ⟨(c.header level).localExtra, c.payload level⟩) :
    Again policy level (ofEntry plan path key stage archive b index entry)
      (ofEntry plan path key stage archive' b' index ((c.header level).recorded localOffset index)) := by
  obtain ⟨localExtra, hgiven⟩ := given_of_call hcall
  have htext : ((c.header level).recorded localOffset index).name.text = entry.name.text := by
    change (c.header level).name.text = entry.name.text
    rw [name_header, hgiven]
  obtain ⟨raw, hraw, hs | ⟨opener, position, data, nested, hs, hunpack, hparse⟩⟩ :=
    ofEntry_cases (ne_broken_of_call hcall)
  · rw [ofEntry_unopened hraw hs] at hcall hr ⊢
    rw [ofEntry_unopened hraw' (htext ▸ hs), htext]
    exact again_leaf hd rfl hcall hr hsized localOffset index
  · rw [ofEntry_opened hraw hs hunpack, ofContainer_of_parse hparse] at hcall hr ⊢
    obtain ⟨w, done, hw, hfinish, hc⟩ := (call_container_eq_ok rfl).mp hcall
    -- the payload of the call is unpacked to the archive that was finished, which a later stage opens
    have hunpack' : ((c.header level).reread localOffset index).unpack (c.payload level) = .ok done.bytes := by
      rw [← hc] at hsized ⊢
      exact Call.unpack_payload hsized localOffset index
    have hbounds := Container.UnpackPlan.stage?_bounds hs
    obtain ⟨nested', hparse', hcomment, hagain⟩ := ih position hbounds.1 hbounds.2 _ _ nested data w done hparse
      hr.1 hw hfinish (hr.2 w done hw hfinish)
    rw [ofEntry_opened hraw' (htext ▸ hs) hunpack', htext, ofContainer_of_parse hparse']
    refine ⟨redone_container hagain, fun c₁ hc₁ => ?_⟩
    obtain rfl := Except.ok.inj (hcall.symm.trans hc₁)
    obtain ⟨w', done', hw', hfinish', hbytes⟩ := rebuilt_again hagain hw hfinish
    refine ⟨_, (call_container_eq_ok rfl).mpr ⟨w', done', hcomment ▸ hw', hfinish', rfl⟩, ?_⟩
    rw [← hc, hbytes]
    exact .packed _ _ localOffset index

variable {calls : List Call}

theorem call_getElem
    (h : List.Forall₂ (fun t c => call policy level t = .ok c) (entryTrees plan path key stage archive b) calls)
    (hi : index < archive.entries.size) (hc : index < calls.length) :
    call policy level (ofEntry plan path key stage archive b index archive.entries[index]) = .ok calls[index] := by
  have hentry := (List.forall₂_iff_get.mp h).2 index (length_entryTrees.symm ▸ hi) hc
  rwa [get_entryTrees hi] at hentry

/-- The entries of an archive, one by one beside what is read of the calls that they stand for. -/
theorem forall₂_reopened {R : Tree → Tree → Prop} {w : Writer} {done : Finished}
    (h : List.Forall₂ (fun t c => call policy level t = .ok c) (entryTrees plan path key stage archive b) calls)
    (hholds : w.Holds (Call.items level calls)) (hfinish : w.finish = .ok done)
    (hR : ∀ i (_ : i < archive.entries.size) (_ : i < calls.length) offset,
      w.reopened.readRaw done.bytes i = .ok ⟨(calls[i].header level).localExtra, calls[i].payload level⟩ →
      R (ofEntry plan path key stage archive b i archive.entries[i])
        (ofEntry plan path key stage w.reopened done.bytes i ((calls[i].header level).recorded offset i))) :
    List.Forall₂ R (entryTrees plan path key stage archive b)
      (entryTrees plan path key stage w.reopened done.bytes) := by
  have hlength := h.length_eq
  rw [length_entryTrees] at hlength
  have hitems : (Call.items level calls).length = calls.length := List.length_map _
  have hsize : w.reopened.entries.size = calls.length := by
    rw [← hitems, ← hholds.size]
    simp [Writer.reopened, recordedFrom]
  refine List.forall₂_iff_get.mpr ⟨?_, fun i hi hi' => ?_⟩
  · simp [hsize, hlength]
  · rw [length_entryTrees] at hi hi'
    have hc : i < calls.length := hlength ▸ hi
    have hit : i < (Call.items level calls).length := hitems.symm ▸ hc
    have hitem : (Call.items level calls)[i] = (calls[i].header level, calls[i].payload level) := List.getElem_map _
    obtain ⟨offset, hentry, -⟩ := hholds.reopened_entry hit
    have hraw := hholds.reopened_readRaw hfinish hit
    rw [hitem] at hentry hraw
    rw [get_entryTrees hi, get_entryTrees hi', (Array.getElem?_eq_some_iff.mp hentry).2]
    exact hR i hi hc offset hraw

/-- The calls for the entries of an archive hand over headers that readers take. -/
theorem plain_given (hparse : Archive.parse b = .ok archive)
    (h : List.Forall₂ (fun t c => call policy level t = .ok c) (entryTrees plan path key stage archive b) calls) :
    ∀ c ∈ calls, c.given.Plain := by
  intro c hm
  obtain ⟨i, hc, rfl⟩ := List.getElem_of_mem hm
  have hi : i < archive.entries.size := by
    rw [← h.length_eq, length_entryTrees] at hc
    exact hc
  have hread := Archive.asRead_of_parse hparse _ (Array.getElem_mem hi)
  obtain ⟨localExtra, hgiven⟩ := given_of_call (call_getElem h hi hc)
  rw [hgiven]
  exact ⟨hread.name, hread.notEncrypted⟩

end

/-- Archives of all stages are rebuilt to themselves, those of later stages first. -/
theorem archives_again (hd : policy.Dotted) (level : Deflate.Level) (plan : Container.UnpackPlan) (stage : Nat) :
    ArchivesAgain policy level plan stage := by
  induction hm : plan.stages.length - stage using Nat.strongRecOn generalizing stage with
  | _ m ih =>
    have hlater : ∀ position, stage < position → position < plan.stages.length →
        ArchivesAgain policy level plan position :=
      fun position hlt hstages => ih _ (by omega) position rfl
    intro path key archive b w done hparse hr hw hfinish hreopens
    obtain ⟨calls, hcalls, htaken⟩ := addAll_eq_ok.mp hw
    obtain ⟨hholds, hsized, hcomment⟩ := htaken.holds (Writer.holds_nil level archive.comment)
    rw [List.nil_append] at hholds
    have hparse' := hholds.parse_finish (Call.plain_items (plain_given hparse hcalls)) hreopens.narrow hfinish
      hreopens.noLocator hreopens.last
    refine ⟨w.reopened, hparse', hcomment, forall₂_reopened hcalls hholds hfinish fun i hi hc offset hraw => ?_⟩
    have hri := allRepeatable_iff.mp hr _ (List.get_mem _ ⟨i, length_entryTrees.symm ▸ hi⟩)
    rw [get_entryTrees hi] at hri
    exact again_entry hd hlater (call_getElem hcalls hi hc) hri (hsized _ (List.getElem_mem hc)) offset hraw

/-! ## Whole files -/

/-- A file that was rebuilt is rebuilt to itself, and no class of it changes. -/
theorem rebuild_again (hd : policy.Dotted) {name : String} {b bytes : Bytes}
    (h : rebuild policy level (ofFile name b) = .ok bytes) (hr : Repeatable policy level (ofFile name b)) :
    Redone policy (ofFile name b) (ofFile name bytes) ∧ rebuild policy level (ofFile name bytes) = .ok bytes := by
  simp only [ofFile] at h hr ⊢
  cases hs : (Container.UnpackPlan.forInput name).stage? name true 0 with
  | none =>
    simp only [hs] at h hr ⊢
    obtain ⟨data?, hdata, hbytes⟩ := map_eq_ok.mp ((rebuild_leaf rfl).symm.trans h)
    have hkept : replacement policy ⟨⟨name, []⟩, [], .plain bytes⟩ = .ok none := by
      refine replacement_again hd hdata hr rfl rfl ?_
      cases data? <;> exact congrArg Except.ok hbytes.symm
    refine ⟨redone_leaf rfl hkept, ?_⟩
    rw [rebuild_leaf rfl, hkept]
    rfl
  | some found =>
    obtain ⟨opener, position⟩ := found
    simp only [hs] at h hr ⊢
    cases hparse : Archive.parse b with
    | error e =>
      rw [ofContainer, hparse] at h
      cases h
    | ok archive =>
      rw [ofContainer_of_parse hparse] at h hr ⊢
      obtain ⟨w, done, hw, hfinish, rfl⟩ := rebuild_container_eq_ok.mp h
      obtain ⟨archive', hparse', hcomment, hagain⟩ := archives_again hd level _ position _ _ archive b w done hparse
        hr.1 hw hfinish (hr.2 w done hw hfinish)
      obtain ⟨w', done', hw', hfinish', hbytes⟩ := rebuilt_again hagain hw hfinish
      rw [ofContainer_of_parse hparse']
      exact ⟨redone_container hagain, rebuild_container_eq_ok.mpr ⟨w', done', hcomment ▸ hw', hfinish', hbytes⟩⟩

end SourceLabel.Relabel
