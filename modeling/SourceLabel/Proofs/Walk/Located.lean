import SourceLabel.Proofs.Walk.Opened
import SourceLabel.Proofs.Zip.Written

/-!
# Where a walk fails

The events of a walk tell which containers are open at any time, and how far the walk has come in each of them:
an open container has been entered and not yet left, and its entries are met in the order of its directory. A walk
fails at the entry that comes next in the innermost open container. If the entry cannot be read, the failure is a
fault of that container. If it can be read but not be opened, the failure is a fault of the container that the
entry should be.
-/
namespace SourceLabel.Walk

open Container Result

/-! ## What the events tell -/

def Event.key : Event → EntryKey
  | .enter c | .leave c => c.key
  | .leaf l => l.key

/-- The open containers after an event, given those before it. -/
def Event.follow (opened : List Opened) : Event → List Opened
  | .enter c => c :: opened
  | .leaf _ => opened
  | .leave c => opened.erase c

/-- The containers that have been entered and not yet left, the innermost first. -/
def openAfter (events : List Event) : List Opened :=
  events.foldl Event.follow []

theorem openAfter_append (events : List Event) (event : Event) :
    openAfter (events ++ [event]) = event.follow (openAfter events) := by
  rw [openAfter, List.foldl_append]
  rfl

/-- What lies under a key in the file: each index is the position of an entry, whose contents are an archive again
if more indices follow. -/
def contentsAt (file : Bytes) (key : EntryKey) : Except Error Bytes :=
  key.foldlM (fun b index => do (← Zip.Archive.parse b).read b index) file

theorem contentsAt_child {file b : Bytes} {key : EntryKey} {archive : Zip.Archive}
    (hcontents : contentsAt file key = .ok b) (hparse : Zip.Archive.parse b = .ok archive) (index : Nat) :
    contentsAt file (key.child index) = archive.read b index := by
  rw [contentsAt] at hcontents
  rw [contentsAt, EntryKey.child, List.foldlM_append, hcontents]
  show (Zip.Archive.parse b >>= fun archive => archive.read b index) >>= pure = _
  rw [hparse]
  exact bind_pure _

/-- A walk that has yielded these events comes next to this entry of the container `c`, the innermost one that is
open: the entries before it have been met, but not this one. -/
structure ComesTo (file : Bytes) (events : List Event) (c : Opened) (b : Bytes) (archive : Zip.Archive)
    (index : Nat) (entry : Zip.Entry) : Prop where
  innermost : (openAfter events).head? = some c
  contents : contentsAt file c.key = .ok b
  parse : Zip.Archive.parse b = .ok archive
  entry : archive.entries[index]? = some entry
  met : ∀ i, i < index ↔ ∃ event ∈ events, event.key = c.key.child i

/-- How a walk over a file fails after these events. -/
inductive FailsAfter (name : String) (file : Bytes) (events : List Event) : Error → Prop
  /-- The next entry cannot be read. -/
  | unreadable {c : Opened} {b : Bytes} {archive : Zip.Archive} {index : Nat} {entry : Zip.Entry} {fault : Error} :
      ComesTo file events c b archive index entry → archive.readRaw b index = .error fault →
      FailsAfter name file events (.malformedContainer c.path.toString fault.message)
  /-- The next entry should be a container, but its contents are not what its header says. -/
  | damaged {c : Opened} {b : Bytes} {archive : Zip.Archive} {index position : Nat} {entry : Zip.Entry}
      {raw : Zip.RawEntry} {fault : Error} :
      ComesTo file events c b archive index entry → archive.readRaw b index = .ok raw →
      Opens name (c.path.child entry.name.text) position → archive.read b index = .error fault →
      FailsAfter name file events (.malformedContainer (c.path.child entry.name.text).toString fault.message)
  /-- The next entry should be a container, but its contents are no archive. -/
  | noArchive {c : Opened} {b : Bytes} {archive : Zip.Archive} {index position : Nat} {entry : Zip.Entry}
      {data : Bytes} {fault : Error} :
      ComesTo file events c b archive index entry → archive.read b index = .ok data →
      Opens name (c.path.child entry.name.text) position → Zip.Archive.parse data = .error fault →
      FailsAfter name file events (.malformedContainer (c.path.child entry.name.text).toString fault.message)

/-! ## Keys -/

theorem child_inj_of_prefix {key k : EntryKey} {i j : Nat} (hi : key.child i <+: k) (hj : key.child j <+: k) :
    i = j := by
  have hlength : (key.child i).length = (key.child j).length := by
    rw [EntryKey.child, EntryKey.child, List.length_append, List.length_append, List.length_singleton,
      List.length_singleton]
  have hsame : key.child i = key.child j :=
    (List.prefix_of_prefix_length_le hi hj (Nat.le_of_eq hlength)).eq_of_length hlength
  exact List.singleton_inj.mp (List.append_cancel_left hsame)

theorem not_child_prefix (key : EntryKey) (i : Nat) : ¬ key.child i <+: key := by
  intro h
  have hlength := h.length_le
  rw [EntryKey.child, List.length_append, List.length_singleton] at hlength
  omega

/-! ## The stack and the events -/

variable {name : String} {file : Bytes} {w : Walk} {events : List Event} {event : Event} {f g : Frame}
  {outer : List Frame}

/-- The stack agrees with the events: each open container is read from what lies under its key, and the position in
it tells which of its entries have been met. -/
structure Tracks (file : Bytes) (events : List Event) (frames : List Frame) : Prop where
  contents : ∀ f ∈ frames, contentsAt file f.container.key = .ok (f.source.bytes file)
  parse : ∀ f ∈ frames, Zip.Archive.parse (f.source.bytes file) = .ok f.archive
  /-- Each container lies in an entry of those around it that has been met. -/
  inside : frames.Pairwise fun inner outer =>
    ∃ i < outer.next, outer.container.key.child i <+: inner.container.key
  met : ∀ f ∈ frames, ∀ i < f.next, ∃ event ∈ events, event.key = f.container.key.child i
  unmet : ∀ f ∈ frames, ∀ event ∈ events, ∀ i, f.next ≤ i → ¬ f.container.key.child i <+: event.key

namespace Tracks

theorem comesTo (h : Tracks file events (f :: outer))
    (hopened : (f :: outer).map Frame.container = openAfter events) {entry : Zip.Entry}
    (he : f.archive.entries[f.next]? = some entry) :
    ComesTo file events f.container (f.source.bytes file) f.archive f.next entry where
  innermost := by
    rw [← hopened]
    rfl
  contents := h.contents f List.mem_cons_self
  parse := h.parse f List.mem_cons_self
  entry := he
  met i := by
    constructor
    · exact h.met f List.mem_cons_self i
    · rintro ⟨event, hevent, hkey⟩
      by_contra hi
      exact h.unmet f List.mem_cons_self event hevent i (Nat.not_lt.mp hi) (hkey ▸ List.prefix_refl _)

/-- The containers around `f` have been met up to the entry that `f` lies in, so what lies in `f` is no news for
them. -/
theorem around (h : Tracks file events (f :: outer)) (hkey : f.container.key <+: event.key) :
    Tracks file (events ++ [event]) outer := by
  obtain ⟨hinside, houter⟩ := List.pairwise_cons.mp h.inside
  refine {
    contents := fun g hg => h.contents g (List.mem_cons_of_mem f hg)
    parse := fun g hg => h.parse g (List.mem_cons_of_mem f hg)
    inside := houter
    met := fun g hg i hi => ?_
    unmet := fun g hg event' hevent' i hi hprefix => ?_ }
  · obtain ⟨event', hevent', hkey'⟩ := h.met g (List.mem_cons_of_mem f hg) i hi
    exact ⟨event', List.mem_append_left _ hevent', hkey'⟩
  · rcases List.mem_append.mp hevent' with hold | hnew
    · exact h.unmet g (List.mem_cons_of_mem f hg) event' hold i hi hprefix
    · obtain rfl := List.mem_singleton.mp hnew
      obtain ⟨j, hj, hin⟩ := hinside g hg
      have hij : i = j := child_inj_of_prefix hprefix (hin.trans hkey)
      omega

theorem advance (h : Tracks file events (f :: outer)) (hkey : event.key = f.container.key.child f.next) :
    Tracks file (events ++ [event]) ({ f with next := f.next + 1 } :: outer) := by
  have hprefix : f.container.key <+: event.key := hkey ▸ List.prefix_append _ _
  have haround := h.around hprefix
  refine {
    contents := List.forall_mem_cons.mpr ⟨h.contents f List.mem_cons_self, haround.contents⟩
    parse := List.forall_mem_cons.mpr ⟨h.parse f List.mem_cons_self, haround.parse⟩
    inside := List.pairwise_cons.mpr ⟨(List.pairwise_cons.mp h.inside).1, haround.inside⟩
    met := List.forall_mem_cons.mpr ⟨fun i hi => ?_, haround.met⟩
    unmet := List.forall_mem_cons.mpr ⟨fun event' hevent' i hi => ?_, haround.unmet⟩ }
  · rcases Nat.lt_or_eq_of_le (Nat.le_of_lt_succ hi) with hless | rfl
    · obtain ⟨event', hevent', hkey'⟩ := h.met f List.mem_cons_self i hless
      exact ⟨event', List.mem_append_left _ hevent', hkey'⟩
    · exact ⟨event, List.mem_append_right _ (List.mem_singleton_self _), hkey⟩
  · rcases List.mem_append.mp hevent' with hold | hnew
    · exact h.unmet f List.mem_cons_self event' hold i (Nat.le_of_succ_le hi)
    · obtain rfl := List.mem_singleton.mp hnew
      intro hchild
      have hnext : i = f.next := child_inj_of_prefix hchild (hkey ▸ List.prefix_refl _)
      exact absurd hi (by rw [hnext]; exact Nat.not_succ_le_self _)

/-- The next entry of the innermost container is met, and opened. -/
theorem enter (h : Tracks file events (f :: outer)) (hevent : event.key = f.container.key.child f.next)
    (hkey : g.container.key = f.container.key.child f.next) (hnext : g.next = 0)
    (hcontents : contentsAt file g.container.key = .ok (g.source.bytes file))
    (hparse : Zip.Archive.parse (g.source.bytes file) = .ok g.archive) :
    Tracks file (events ++ [event]) (g :: { f with next := f.next + 1 } :: outer) := by
  have hadvance := h.advance hevent
  refine {
    contents := List.forall_mem_cons.mpr ⟨hcontents, hadvance.contents⟩
    parse := List.forall_mem_cons.mpr ⟨hparse, hadvance.parse⟩
    inside := List.pairwise_cons.mpr ⟨List.forall_mem_cons.mpr ⟨?_, fun k hk => ?_⟩, hadvance.inside⟩
    met := List.forall_mem_cons.mpr ⟨fun i hi => ?_, hadvance.met⟩
    unmet := List.forall_mem_cons.mpr ⟨fun event' hevent' i _ hchild => ?_, hadvance.unmet⟩ }
  · exact ⟨f.next, Nat.lt_succ_self _, hkey ▸ List.prefix_refl _⟩
  · obtain ⟨i, hi, hin⟩ := (List.pairwise_cons.mp h.inside).1 k hk
    exact ⟨i, hi, hkey ▸ hin.trans (List.prefix_append _ _)⟩
  · omega
  · rcases List.mem_append.mp hevent' with hold | hnew
    · refine h.unmet f List.mem_cons_self event' hold f.next (Nat.le_refl _) ?_
      exact hkey ▸ (List.prefix_append _ _).trans hchild
    · obtain rfl := List.mem_singleton.mp hnew
      rw [hevent, ← hkey] at hchild
      exact not_child_prefix _ _ hchild

end Tracks

/-! ## One entry -/

theorem read_of_readRaw {archive : Zip.Archive} {b : Bytes} {index : Nat} {entry : Zip.Entry} {raw : Zip.RawEntry}
    (he : archive.entries[index]? = some entry) (hraw : archive.readRaw b index = .ok raw) :
    archive.read b index = ({ entry with localExtra := raw.localExtra } : Zip.Entry).unpack raw.data := by
  simp only [Zip.Archive.read, he, hraw]
  rfl

/-- An entry that is not opened is met. One that is opened is read from what lies under its key. -/
theorem Frame.read_of_visit {plan : UnpackPlan} {entry : Zip.Entry} {v : Visit}
    (he : f.archive.entries[f.next]? = some entry) (h : f.visit plan file f.next entry = .ok v) :
    (v.opened? = none ∧ ∃ l, v.event = .leaf l ∧ l.key = f.container.key.child f.next) ∨
      ∃ g, v.opened? = some g ∧ v.event = .enter g.container ∧ g.container.key = f.container.key.child f.next ∧
        g.next = 0 ∧ f.archive.read (f.source.bytes file) f.next = .ok (g.source.bytes file) ∧
        Zip.Archive.parse (g.source.bytes file) = .ok g.archive := by
  obtain ⟨raw, hraw, hvisit⟩ := visit_eq_ok h
  rcases hvisit with ⟨payload, -, rfl⟩ | ⟨stage, g, data, told, -, hunpack, hparse, hsource, hnext, -, hkey, -, rfl⟩
  · exact .inl ⟨rfl, _, rfl, rfl⟩
  · have hbytes : g.source.bytes file = data := hsource ▸ rfl
    rw [← hbytes] at hunpack hparse
    exact .inr ⟨g, rfl, rfl, hkey, hnext, (read_of_readRaw he hraw).trans hunpack, hparse⟩

theorem eq_of_placed {α : Type} {x : Except Error α} {path : String} {e : Error}
    (hx : FailsWith Error.Placeless x) (h : x.mapError (Error.inContainer path) = .error e) :
    ∃ fault, x = .error fault ∧ e = .malformedContainer path fault.message := by
  cases x with
  | ok a => exact nomatch h
  | error fault =>
    obtain rfl := Except.error.inj h
    exact ⟨fault, rfl, hx fault rfl path⟩

/-- If the next entry cannot be read or opened, the failure says where. -/
theorem Tracks.failsAfter (h : Tracks file events (f :: outer))
    (hopened : (f :: outer).map Frame.container = openAfter events) {entry : Zip.Entry} {e : Error}
    (hopens : Opens name f.container.path f.stage) (he : f.archive.entries[f.next]? = some entry)
    (hvisit : f.visit (UnpackPlan.forInput name) file f.next entry = .error e) :
    FailsAfter name file events e := by
  have hcomes := h.comesTo hopened he
  rcases bind_eq_error.mp hvisit with hraw | ⟨raw, hraw, hrest⟩
  · obtain ⟨fault, hfault, rfl⟩ := eq_of_placed (Zip.Archive.failsWith_readRaw _ _ _) hraw
    exact .unreadable hcomes hfault
  have hraw := mapError_eq_ok.mp hraw
  have hread := read_of_readRaw he hraw
  simp only at hrest
  split at hrest
  · exact nomatch hrest
  next stage position hs =>
  have hchild : Opens name (f.container.path.child entry.name.text) position := .entry hopens hs
  rcases bind_eq_error.mp hrest with hunpack | ⟨data, hunpack, hopen⟩
  · obtain ⟨fault, hfault, rfl⟩ := eq_of_placed (Zip.Entry.failsWith_unpack _ _) hunpack
    exact .damaged hcomes hraw hchild (hread.trans hfault)
  · have hdata := hread.trans (mapError_eq_ok.mp hunpack)
    rcases bind_eq_error.mp hopen with hparse | ⟨_, -, hnone⟩
    · obtain ⟨fault, hfault, rfl⟩ := eq_of_placed (failsWith_openArchive data) hparse
      exact .noArchive hcomes hdata hchild (parse_of_openArchive_error hfault)
    · exact nomatch hnone

/-! ## One step -/

/-- The walk has yielded these events, and agrees with them. -/
structure Follows (name : String) (file : Bytes) (events : List Event) (w : Walk) : Prop where
  within : w.Within name
  isDone : w.isDone = false
  opened : w.frames.map Frame.container = openAfter (events ++ w.pending.toList)
  tracks : Tracks file (events ++ w.pending.toList) w.frames

theorem Follows.of_none {frames : List Frame} (hwithin : Within name ⟨.forInput name, frames, none, false⟩)
    (hopened : frames.map Frame.container = openAfter events) (htracks : Tracks file events frames) :
    Follows name file events ⟨.forInput name, frames, none, false⟩ := by
  rw [← List.append_nil events] at hopened htracks
  exact ⟨hwithin, rfl, hopened, htracks⟩

theorem follows_of_start {told : List Record} (h : start name file = .ok (w, told)) : w.Follows name file [] := by
  have hwithin := within_of_start h
  unfold start at h
  simp only at h
  split at h
  · obtain ⟨rfl, -⟩ := Prod.mk.inj (Except.ok.inj h)
    exact ⟨hwithin, rfl, rfl, List.forall_mem_nil _, List.forall_mem_nil _, .nil, List.forall_mem_nil _,
      List.forall_mem_nil _⟩
  · obtain ⟨opened, hopen, hstart⟩ := bind_eq_ok.mp h
    obtain ⟨rfl, -⟩ := Prod.mk.inj (Except.ok.inj hstart)
    refine ⟨hwithin, rfl, rfl, List.forall_mem_singleton.mpr rfl,
      List.forall_mem_singleton.mpr (parse_of_openArchive (mapError_eq_ok.mp hopen)), List.pairwise_singleton _ _,
      List.forall_mem_singleton.mpr fun i hi => absurd hi (Nat.not_lt_zero i), ?_⟩
    intro f hf event hevent i _
    obtain rfl := List.mem_singleton.mp hf
    obtain rfl := List.mem_singleton.mp hevent
    exact not_child_prefix [] i

/-- A step goes on to the next event, or the walk is over. -/
theorem Follows.next (h : w.Follows name file events) :
    match (w.next file).result with
    | none => (w.next file).walk.isDone = true
    | some (.error e) => FailsAfter name file events e ∧ (w.next file).walk.isDone = true
    | some (.ok event) => (w.next file).walk.Follows name file (events ++ [event]) := by
  have hwithin := (h.within.next file).1
  have hstep := steps_next w file
  generalize w.next file = step at hwithin hstep ⊢
  obtain ⟨plan, frames, pending, isDone⟩ := w
  obtain ⟨⟨hplan, hframes, -⟩, hdone, hopened, htracks⟩ := h
  dsimp only at hplan hframes hdone hopened htracks
  subst hdone hplan
  cases hstep with
  | ended hended => exact nomatch hended
  | pending => exact .of_none hwithin hopened htracks
  | finish => rfl
  | @leave _ f outer =>
    rw [Option.toList_none, List.append_nil] at hopened htracks
    refine .of_none hwithin ?_ (htracks.around (List.prefix_refl _))
    rw [openAfter_append, ← hopened]
    exact (List.erase_cons_head ..).symm
  | @fail _ f entry e outer he hvisit =>
    rw [Option.toList_none, List.append_nil] at hopened htracks
    exact ⟨htracks.failsAfter hopened (hframes f List.mem_cons_self) he hvisit, rfl⟩
  | @visit _ f entry v outer he hvisit =>
    rw [Option.toList_none, List.append_nil] at hopened htracks
    have hmet := Frame.read_of_visit he hvisit
    obtain ⟨event, opened?, told⟩ := v
    dsimp only at hmet
    rcases hmet with ⟨rfl, l, rfl, hkey⟩ | ⟨g, rfl, rfl, hkey, hnext, hread, hparse⟩
    · refine .of_none hwithin ?_ (htracks.advance hkey)
      rw [openAfter_append, ← hopened]
      rfl
    · refine .of_none hwithin ?_ (htracks.enter hkey hkey hnext ?_ hparse)
      · rw [openAfter_append, ← hopened]
        rfl
      · rw [hkey, contentsAt_child (htracks.contents f List.mem_cons_self) (htracks.parse f List.mem_cons_self)]
        exact hread

/-! ## Any number of steps -/

/-- What a walk over a file that does not change yields when it is asked so many times. -/
def results (file : Bytes) : (times : Nat) → Walk → List (Option (Except Error Event))
  | 0, _ => []
  | times + 1, w => (w.next file).result :: results file times (w.next file).walk

theorem results_of_isDone (hdone : w.isDone = true) (times : Nat) :
    ∀ result ∈ results file times w, result = none := by
  have hstep : w.next file = { result := none, walk := w } := by
    rw [Walk.next, if_pos hdone]
  induction times with
  | zero => exact List.forall_mem_nil _
  | succ times ih =>
    rw [results, hstep]
    exact List.forall_mem_cons.mpr ⟨rfl, ih⟩

theorem Follows.results {times : Nat} {before after : List (Option (Except Error Event))} {e : Error}
    (h : w.Follows name file events) (hresults : results file times w = before ++ some (.error e) :: after) :
    ∃ more, before = more.map (fun event => some (.ok event)) ∧ FailsAfter name file (events ++ more) e ∧
      ∀ result ∈ after, result = none := by
  induction times generalizing w events before with
  | zero => exact absurd hresults (by simp [Walk.results])
  | succ times ih =>
    have hnext := h.next
    rw [Walk.results] at hresults
    cases before with
    | nil =>
      obtain ⟨hfirst, rfl⟩ := List.cons.inj hresults
      rw [hfirst] at hnext
      refine ⟨[], rfl, ?_, results_of_isDone hnext.2 times⟩
      rw [List.append_nil]
      exact hnext.1
    | cons first before =>
      obtain ⟨hfirst, hrest⟩ := List.cons.inj hresults
      -- a step that yields no event is the last one, and no failure can follow it
      have hgoing : (w.next file).walk.isDone ≠ true := by
        intro hdone
        have hmem : some (.error e) ∈ Walk.results file times (w.next file).walk := by
          rw [hrest]
          exact List.mem_append_right _ List.mem_cons_self
        exact nomatch results_of_isDone hdone times _ hmem
      rw [hfirst] at hnext
      split at hnext
      · exact absurd hnext hgoing
      · exact absurd hnext.2 hgoing
      · next event =>
        obtain ⟨more, rfl, hfails, hafter⟩ := ih hnext hrest
        refine ⟨event :: more, rfl, ?_, hafter⟩
        rwa [List.append_assoc] at hfails

/-! ## From the beginning -/

theorem failsAt_of_start {e : Error} (h : start name file = .error e) :
    ∃ position fault, Opens name ⟨name, []⟩ position ∧ Zip.Archive.parse file = .error fault ∧
      e = .malformedContainer name fault.message := by
  unfold start at h
  simp only at h
  split at h
  · exact nomatch h
  next stage position hs =>
  rcases bind_eq_error.mp h with hopen | ⟨_, -, hnone⟩
  · obtain ⟨fault, hfault, rfl⟩ := eq_of_placed (failsWith_openArchive file) hopen
    exact ⟨position, fault, .file hs, parse_of_openArchive_error hfault, rfl⟩
  · exact nomatch hnone

/-- If a walk cannot begin, its file should be a container and holds no archive, and the failure is a fault of the
file. If a walk fails later, it has yielded nothing but events before, they tell the entry that it fails at, and
from then on it yields nothing, however often it is asked. -/
theorem failures_located (name : String) (file : Bytes) :
    match start name file with
    | .error e => ∃ position fault, Opens name ⟨name, []⟩ position ∧ Zip.Archive.parse file = .error fault ∧
        e = .malformedContainer name fault.message
    | .ok (w, _) => ∀ times before e after, results file times w = before ++ some (.error e) :: after →
        ∃ events, before = events.map (fun event => some (.ok event)) ∧ FailsAfter name file events e ∧
          ∀ result ∈ after, result = none := by
  cases hstart : start name file with
  | error e => exact failsAt_of_start hstart
  | ok begun =>
    intro times before e after hresults
    exact (follows_of_start hstart).results hresults

/-- An archive with a text in it, behind an archive that holds what should be an archive and is none. -/
def brokenFile : Bytes :=
  Zip.packAll [(⟨"a.aar", by decide, by decide⟩, Zip.packAll [(⟨"classes.jar", by decide, by decide⟩, [63])]),
    (⟨"after.txt", by decide, by decide⟩, [104, 105])]

set_option maxRecDepth 100000 in
theorem failures_located_brokenFile :
    ∃ w told before, start "x.zip" brokenFile = .ok (w, told) ∧
      results brokenFile 4 w = before ++ [some (.error (.malformedContainer "x.zip!/a.aar!/classes.jar"
        "Invalid zip format: 1 bytes is too short for a zip archive")), none] ∧
      ∃ events, before = events.map (fun event => some (.ok event)) ∧
        FailsAfter "x.zip" brokenFile events (.malformedContainer "x.zip!/a.aar!/classes.jar"
          "Invalid zip format: 1 bytes is too short for a zip archive") := by
  have hrun : (start "x.zip" brokenFile).toOption.map (fun begun => (results brokenFile 4 begun.1).drop 2) =
      some [some (.error (.malformedContainer "x.zip!/a.aar!/classes.jar"
        "Invalid zip format: 1 bytes is too short for a zip archive")), none] := by
    decide +kernel
  have hlocated := failures_located "x.zip" brokenFile
  split at hlocated
  · next hstart =>
    rw [hstart] at hrun
    exact nomatch hrun
  · next w told hstart =>
    rw [hstart] at hrun
    have hdrop := Option.some.inj hrun
    have hresults := (List.take_append_drop 2 (results brokenFile 4 w)).symm
    dsimp only at hdrop
    rw [hdrop] at hresults
    obtain ⟨events, hbefore, hfails, -⟩ := hlocated _ _ _ _ hresults
    exact ⟨w, told, _, hstart, hresults, events, hbefore, hfails⟩

end SourceLabel.Walk
