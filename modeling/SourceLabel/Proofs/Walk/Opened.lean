import SourceLabel.Proofs.Container.Nesting
import SourceLabel.Proofs.Zip.Faults
import SourceLabel.Walk.Basic

/-!
# What a walk opens, and how it fails

A step of a walk is of one of a few kinds, and what is proved of all steps is proved of each kind. A walk opens
nothing but what the plan for the name of its file opens, stage after stage, and this is so even if the file changes
between two steps. Whatever cannot be read is a fault of a container.
-/
namespace SourceLabel.Walk

open Container Result

/-! ## Steps -/

/-- What a step over a file can be. -/
inductive Steps (file : Bytes) : Walk → Step → Prop
  | ended {w : Walk} : w.isDone = true → Steps file w { result := none, walk := w }
  | pending (plan : UnpackPlan) (frames : List Frame) (event : Event) :
      Steps file ⟨plan, frames, some event, false⟩ { result := some (.ok event), walk := ⟨plan, frames, none, false⟩ }
  | finish (plan : UnpackPlan) :
      Steps file ⟨plan, [], none, false⟩ { result := none, walk := ⟨plan, [], none, true⟩ }
  | leave (plan : UnpackPlan) {f : Frame} (outer : List Frame) : f.archive.entries[f.next]? = none →
      Steps file ⟨plan, f :: outer, none, false⟩
        { result := some (.ok (.leave f.container)), walk := ⟨plan, outer, none, false⟩ }
  | fail {plan : UnpackPlan} {f : Frame} {entry : Zip.Entry} {e : Error} (outer : List Frame) :
      f.archive.entries[f.next]? = some entry → f.visit plan file f.next entry = .error e →
      Steps file ⟨plan, f :: outer, none, false⟩ { result := some (.error e), walk := ⟨plan, [], none, true⟩ }
  | visit {plan : UnpackPlan} {f : Frame} {entry : Zip.Entry} {v : Visit} (outer : List Frame) :
      f.archive.entries[f.next]? = some entry → f.visit plan file f.next entry = .ok v →
      Steps file ⟨plan, f :: outer, none, false⟩
        { result := some (.ok v.event)
          walk := ⟨plan, v.opened?.toList ++ { f with next := f.next + 1 } :: outer, none, false⟩
          told := v.told }

theorem steps_next (w : Walk) (file : Bytes) : Steps file w (w.next file) := by
  obtain ⟨plan, frames, pending, isDone⟩ := w
  cases isDone with
  | true => exact .ended rfl
  | false =>
    cases pending with
    | some event => exact .pending plan frames event
    | none =>
      cases frames with
      | nil => exact .finish plan
      | cons f outer =>
        cases he : f.archive.entries[f.next]? with
        | none =>
          simp only [next, he, Bool.false_eq_true, if_false]
          exact .leave plan outer he
        | some entry =>
          cases hv : f.visit plan file f.next entry with
          | error e =>
            simp only [next, he, hv, Bool.false_eq_true, if_false]
            exact .fail outer he hv
          | ok v =>
            simp only [next, he, hv, Bool.false_eq_true, if_false]
            exact .visit outer he hv

/-! ## What is opened -/

/-- A walk over a file of this name may yield the event: a container that is entered or left is one that
the plan opens. -/
def Event.Possible (name : String) : Event → Prop
  | .enter c | .leave c => ∃ position, Opens name c.path position
  | .leaf _ => True

/-- The walk keeps to the plan for a file of this name: stages of that plan have opened what is open. -/
structure Within (name : String) (w : Walk) : Prop where
  plan : w.plan = UnpackPlan.forInput name
  frames : ∀ f ∈ w.frames, Opens name f.container.path f.stage
  pending : ∀ event, w.pending = some event → event.Possible name

variable {name : String} {w : Walk} {file : Bytes}

theorem parse_of_openArchive {b : Bytes} {opened : Zip.Archive × Record} (h : openArchive b = .ok opened) :
    Zip.Archive.parse b = .ok opened.1 := by
  obtain ⟨archive, hparse, hopened⟩ := bind_eq_ok.mp h
  obtain rfl := Except.ok.inj hopened
  exact hparse

theorem parse_of_openArchive_error {b : Bytes} {fault : Error} (h : openArchive b = .error fault) :
    Zip.Archive.parse b = .error fault := by
  rcases bind_eq_error.mp h with hparse | ⟨_, -, hnone⟩
  · exact hparse
  · exact nomatch hnone

/-- An entry that is visited can be read. If a later stage opens what has its name, its contents are an archive, and
what is opened lies under its name and position, and is of the kind of that stage. -/
theorem Frame.visit_eq_ok {plan : UnpackPlan} {f : Frame} {index : Nat} {entry : Zip.Entry} {v : Visit}
    (h : f.visit plan file index entry = .ok v) :
    ∃ raw, f.archive.readRaw (f.source.bytes file) index = .ok raw ∧
      ((∃ payload, plan.stage? entry.name.text false (f.stage + 1) = none ∧
          v = { event := .leaf ⟨f.container.path.child entry.name.text, f.container.key.child index, payload⟩ }) ∨
        ∃ stage g data told, plan.stage? entry.name.text false (f.stage + 1) = some (stage, g.stage) ∧
          ({ entry with localExtra := raw.localExtra } : Zip.Entry).unpack raw.data = .ok data ∧
          Zip.Archive.parse data = .ok g.archive ∧ g.source = .memory data ∧ g.next = 0 ∧
          g.container.path = f.container.path.child entry.name.text ∧
          g.container.key = f.container.key.child index ∧ g.container.kind = stage.kind ∧
          v = ⟨.enter g.container, some g, told⟩) := by
  obtain ⟨raw, hread, hraw⟩ := bind_eq_ok.mp h
  refine ⟨raw, mapError_eq_ok.mp hread, ?_⟩
  simp only at hraw
  split at hraw
  · next hs =>
    obtain rfl := Except.ok.inj hraw
    exact .inl ⟨_, hs, rfl⟩
  · next stage position hs =>
    obtain ⟨data, hunpack, hdata⟩ := bind_eq_ok.mp hraw
    obtain ⟨opened, hopen, hopened⟩ := bind_eq_ok.mp hdata
    obtain rfl := Except.ok.inj hopened
    exact .inr ⟨stage, ⟨_, opened.1, .memory data, position, 0⟩, data, _, hs, mapError_eq_ok.mp hunpack,
      parse_of_openArchive (mapError_eq_ok.mp hopen), rfl, rfl, rfl, rfl, rfl, rfl⟩

/-- An entry that is opened has the name that a later stage opens, and lies under its own name. -/
theorem Frame.opened_of_visit {plan : UnpackPlan} {f : Frame} {index : Nat} {entry : Zip.Entry} {v : Visit}
    (h : f.visit plan file index entry = .ok v) :
    (v.opened? = none ∧ ∃ l, v.event = .leaf l) ∨
      ∃ g stage, v.opened? = some g ∧ v.event = .enter g.container ∧
        g.container.path = f.container.path.child entry.name.text ∧
        plan.stage? entry.name.text false (f.stage + 1) = some (stage, g.stage) := by
  obtain ⟨raw, -, hvisit⟩ := visit_eq_ok h
  rcases hvisit with ⟨payload, -, rfl⟩ | ⟨stage, g, data, told, hs, -, -, -, -, hpath, -, -, rfl⟩
  · exact .inl ⟨rfl, _, rfl⟩
  · exact .inr ⟨g, stage, rfl, rfl, hpath, hs⟩

theorem within_of_start {told : List Record} (h : start name file = .ok (w, told)) : w.Within name := by
  unfold start at h
  simp only at h
  split at h
  · obtain ⟨rfl, -⟩ := Prod.mk.inj (Except.ok.inj h)
    refine ⟨rfl, nofun, fun event he => ?_⟩
    obtain rfl := Option.some.inj he
    trivial
  · next stage position hs =>
    obtain ⟨⟨archive, _⟩, _, hopened⟩ := bind_eq_ok.mp h
    obtain ⟨rfl, -⟩ := Prod.mk.inj (Except.ok.inj hopened)
    refine ⟨rfl, ?_, ?_⟩
    · intro f hf
      obtain rfl := List.mem_singleton.mp hf
      exact .file hs
    · intro event he
      obtain rfl := Option.some.inj he
      exact ⟨position, .file hs⟩

/-- One step stays within the plan, and yields only what the plan makes possible. -/
theorem Within.next (h : w.Within name) (file : Bytes) :
    (w.next file).walk.Within name ∧
      ∀ event, (w.next file).result = some (.ok event) → event.Possible name := by
  have hstep := steps_next w file
  generalize w.next file = step at hstep ⊢
  cases hstep with
  | ended => exact ⟨h, nofun⟩
  | pending plan frames event =>
    refine ⟨⟨h.plan, h.frames, nofun⟩, fun event' he => ?_⟩
    obtain rfl := Except.ok.inj (Option.some.inj he)
    exact h.pending event rfl
  | finish => exact ⟨⟨h.plan, h.frames, h.pending⟩, nofun⟩
  | @leave plan f outer =>
    obtain ⟨hf, houter⟩ := List.forall_mem_cons.mp h.frames
    refine ⟨⟨h.plan, houter, h.pending⟩, fun event he => ?_⟩
    obtain rfl := Except.ok.inj (Option.some.inj he)
    exact ⟨f.stage, hf⟩
  | fail => exact ⟨⟨h.plan, List.forall_mem_nil _, h.pending⟩, nofun⟩
  | @visit plan f entry v outer _ hv =>
    obtain ⟨hf, houter⟩ := List.forall_mem_cons.mp h.frames
    have hstay : ∀ g ∈ ({ f with next := f.next + 1 } : Frame) :: outer, Opens name g.container.path g.stage :=
      List.forall_mem_cons.mpr ⟨hf, houter⟩
    rcases Frame.opened_of_visit hv with ⟨ho, l, hl⟩ | ⟨g, stage, ho, hl, hpath, hs⟩
    · rw [ho, hl]
      refine ⟨⟨h.plan, hstay, h.pending⟩, fun event he => ?_⟩
      obtain rfl := Except.ok.inj (Option.some.inj he)
      trivial
    · have hplan : plan = UnpackPlan.forInput name := h.plan
      rw [hplan] at hs
      have hg : Opens name g.container.path g.stage := hpath ▸ .entry hf hs
      rw [ho, hl]
      refine ⟨⟨h.plan, List.forall_mem_cons.mpr ⟨hg, hstay⟩, h.pending⟩, fun event he => ?_⟩
      obtain rfl := Except.ok.inj (Option.some.inj he)
      exact ⟨g.stage, hg⟩

theorem Within.possible_of_mem_collect (h : w.Within name) (fuel : Nat) {before : List Event}
    (hb : ∀ event ∈ before, event.Possible name) :
    ∀ event ∈ (collect file fuel w before).1, event.Possible name := by
  induction fuel generalizing w before with
  | zero => exact fun event he => hb event (List.mem_reverse.mp he)
  | succ fuel ih =>
    obtain ⟨hnext, hpossible⟩ := h.next file
    unfold collect
    dsimp only
    split
    · exact fun event he => hb event (List.mem_reverse.mp he)
    · exact fun event he => hb event (List.mem_reverse.mp he)
    · next event he => exact ih hnext (List.forall_mem_cons.mpr ⟨hpossible event he, hb⟩)

theorem Within.possible_of_mem_events (h : w.Within name) :
    ∀ event ∈ (w.events file).1, event.Possible name :=
  h.possible_of_mem_collect _ nofun

/-! ## Failures -/

/-- The failure is a fault of some container. -/
def Malformed (e : Error) : Prop :=
  ∃ path, e.MalformedAt path

theorem failsWith_openArchive (b : Bytes) : FailsWith Error.Placeless (openArchive b) :=
  (Zip.Archive.failsWith_parse b).bind fun _ _ => .ok _

theorem Leaf.failsWith_contents (l : Leaf) : FailsWith (Error.MalformedAt l.path.toString) l.contents := by
  unfold contents
  split
  · exact .ok _
  · exact (Zip.Entry.failsWith_unpack _ _).placed _

theorem Frame.failsWith_visit (f : Frame) (plan : UnpackPlan) (file : Bytes) (index : Nat) (entry : Zip.Entry) :
    FailsWith Malformed (f.visit plan file index entry) := by
  have placed : ∀ {α : Type} {x : Except Error α} (path : String), FailsWith Error.Placeless x →
      FailsWith Malformed (x.mapError (Error.inContainer path)) :=
    fun path hx e he => ⟨path, hx.placed path e he⟩
  unfold visit
  refine (placed _ (Zip.Archive.failsWith_readRaw _ _ _)).bind fun raw _ => ?_
  dsimp only
  split
  · exact .ok _
  · refine (placed _ (Zip.Entry.failsWith_unpack _ _)).bind fun data _ => ?_
    exact (placed _ (failsWith_openArchive data)).bind fun _ _ => .ok _

theorem failsWith_start (name : String) (file : Bytes) : FailsWith Malformed (start name file) := by
  have hopen : FailsWith Malformed ((openArchive file).mapError (Error.inContainer name)) :=
    fun e he => ⟨name, (failsWith_openArchive file).placed name e he⟩
  unfold start
  dsimp only
  split
  · exact .ok _
  · exact hopen.bind fun _ _ => .ok _

theorem malformed_of_next {e : Error} (h : (w.next file).result = some (.error e)) : Malformed e := by
  have hstep := steps_next w file
  generalize w.next file = step at hstep h
  cases hstep with
  | fail outer _ hv =>
    obtain rfl := Except.error.inj (Option.some.inj h)
    exact Frame.failsWith_visit _ _ _ _ _ _ hv
  | ended | pending | finish | leave | visit => exact nomatch h

end SourceLabel.Walk
