import Mathlib.Data.List.Lex
import SourceLabel.Proofs.Walk.Located

/-!
# The order in which a walk meets what is in a file

A walk goes through the entries of a directory in their order, and through all that lies in an entry before it goes
on to the next one, so the keys of what it meets grow. Each open container has been opened by a later stage of the
plan than the one around it. A plan has at most three stages, each for another kind; this bounds how deep a walk can
get, and keeps containers out of containers of their own kind. A step keeps all this, whatever the file holds at that
step.
-/
namespace SourceLabel

/-! ## The order of keys -/

namespace EntryKey

variable {a b key k : EntryKey} {i j : Nat}

theorem lt_iff : EntryKey.lt a b = true ↔ a < b := by
  unfold EntryKey.lt
  induction a generalizing b with
  | nil => cases b <;> simp [precedes]
  | cons m a ih =>
    cases b with
    | nil => simp [precedes]
    | cons n b =>
      simp only [precedes, Bool.or_eq_true, decide_eq_true_eq, Bool.and_eq_true, Bool.not_eq_true',
        decide_eq_false_iff_not, ih, List.cons_lt_cons_iff]
      grind

theorem lt_child_of_prefix (h : key.child i <+: k) (hij : i < j) : k < key.child j := by
  obtain ⟨rest, rfl⟩ := h
  rw [child, child, List.append_assoc]
  exact List.Lex.append_left _ (.rel hij) key

theorem lt_child (key : EntryKey) (i : Nat) : key < key.child i := by
  conv => lhs; rw [← List.append_nil key]
  exact List.Lex.append_left _ .nil key

theorem not_lt_of_prefix (h : a <+: b) : ¬ b < a := by
  obtain ⟨rest, rfl⟩ := h
  exact List.le_append_left

theorem prefix_of_prefix_child (h : k <+: key.child i) (hne : k ≠ key.child i) : k <+: key := by
  rcases List.prefix_concat_iff.mp h with rfl | h
  · exact absurd rfl hne
  · exact h

end EntryKey

namespace Walk

open Container

/-- The key of what an event meets; a container that is left has been met before. -/
def Event.met? : Event → Option EntryKey
  | .enter c => some c.key
  | .leaf l => some l.key
  | .leave _ => none

/-- The keys of what has been met, in the order of the events. -/
def keysMet (events : List Event) : List EntryKey :=
  events.filterMap Event.met?

@[simp] theorem keysMet_append (events more : List Event) : keysMet (events ++ more) = keysMet events ++ keysMet more :=
  List.filterMap_append

theorem key_mem_keysMet {events : List Event} {c : Opened} (h : .enter c ∈ events) : c.key ∈ keysMet events :=
  List.mem_filterMap.mpr ⟨_, h, rfl⟩

/-! ## States of a walk -/

def Step.event? (s : Step) : Option Event :=
  match s.result with
  | some (.ok event) => some event
  | _ => none

/-- A walk over a file of this name may have got here, having yielded these events. The file may hold other bytes at
each step. -/
inductive Reached (name : String) : List Event → Walk → Prop
  | start {file : Bytes} {w : Walk} {told : List Record} : Walk.start name file = .ok (w, told) → Reached name [] w
  | next {events : List Event} {w : Walk} (file : Bytes) :
      Reached name events w → Reached name (events ++ (w.next file).event?.toList) (w.next file).walk

def advance (file : Bytes) : (steps : Nat) → List Event × Walk → List Event × Walk
  | 0, s => s
  | steps + 1, (events, w) => advance file steps (events ++ (w.next file).event?.toList, (w.next file).walk)

theorem Reached.advance {name : String} {events : List Event} {w : Walk} (h : Reached name events w) (file : Bytes)
    (steps : Nat) : Reached name (advance file steps (events, w)).1 (advance file steps (events, w)).2 := by
  induction steps generalizing events w with
  | zero => exact h
  | succ steps ih => exact ih (h.next file)

/-- How a step changes the open containers, and the events that come of it. An event that was pending is no news. -/
inductive Moves (plan : UnpackPlan) (file : Bytes) : List Frame → List Event → List Frame → Prop
  | stay (frames : List Frame) : Moves plan file frames [] frames
  | stop (frames : List Frame) : Moves plan file frames [] []
  | leave (f : Frame) (outer : List Frame) : Moves plan file (f :: outer) [.leave f.container] outer
  | leaf {f : Frame} {l : Leaf} (outer : List Frame) : l.key = f.container.key.child f.next →
      Moves plan file (f :: outer) [.leaf l] ({ f with next := f.next + 1 } :: outer)
  | enter {f g : Frame} {stage : Stage} (outer : List Frame) : g.container.key = f.container.key.child f.next →
      g.next = 0 → g.container.kind = stage.kind → f.stage < g.stage → plan.stages[g.stage]? = some stage →
      Moves plan file (f :: outer) [.enter g.container] (g :: { f with next := f.next + 1 } :: outer)

theorem next_moves (w : Walk) (file : Bytes) :
    (w.next file).walk.plan = w.plan ∧ ∃ events, Moves w.plan file w.frames events (w.next file).walk.frames ∧
      (w.next file).event?.toList ++ (w.next file).walk.pending.toList = w.pending.toList ++ events := by
  have hstep := steps_next w file
  generalize w.next file = step at hstep ⊢
  cases hstep with
  | ended => exact ⟨rfl, [], .stay _, (List.append_nil _).symm⟩
  | pending plan frames event => exact ⟨rfl, [], .stay frames, rfl⟩
  | finish => exact ⟨rfl, [], .stay [], rfl⟩
  | @leave plan f outer => exact ⟨rfl, _, .leave f outer, rfl⟩
  | fail => exact ⟨rfl, [], .stop _, rfl⟩
  | visit outer _ hv =>
    obtain ⟨raw, -, hvisit⟩ := Frame.visit_eq_ok hv
    rcases hvisit with ⟨payload, -, rfl⟩ | ⟨stage, g, data, told, hs, -, -, -, hnext, -, hkey, hkind, rfl⟩
    · exact ⟨rfl, _, .leaf outer rfl, rfl⟩
    · obtain ⟨hle, hstage, -⟩ := UnpackPlan.stage?_eq_some hs
      exact ⟨rfl, _, .enter outer hkey hnext hkind hle hstage, rfl⟩

/-! ## Keys grow -/

variable {name : String} {plan : UnpackPlan} {file : Bytes} {events new : List Event} {event : Event}
  {frames frames' outer : List Frame} {f g : Frame} {w : Walk}

/-- The keys of what has been met grow, and what comes next in each open container is greater than all of them. -/
structure Ascends (events : List Event) (frames : List Frame) : Prop where
  increasing : (keysMet events).Pairwise (· < ·)
  /-- Each open container lies in an entry of those around it that has been met. -/
  inside : frames.Pairwise fun inner outer =>
    ∃ i < outer.next, outer.container.key.child i <+: inner.container.key
  ahead : ∀ f ∈ frames, ∀ key ∈ keysMet events, key < f.container.key.child f.next

namespace Ascends

theorem leave (h : Ascends events (f :: outer)) : Ascends (events ++ [.leave f.container]) outer := by
  have hkeys : keysMet (events ++ [.leave f.container]) = keysMet events := by
    rw [keysMet_append]
    exact List.append_nil _
  refine ⟨hkeys ▸ h.increasing, (List.pairwise_cons.mp h.inside).2, ?_⟩
  rw [hkeys]
  exact fun g hg => h.ahead g (List.mem_cons_of_mem f hg)

theorem advance (h : Ascends events (f :: outer)) (hmet : event.met? = some (f.container.key.child f.next)) :
    Ascends (events ++ [event]) ({ f with next := f.next + 1 } :: outer) := by
  have hkeys : keysMet (events ++ [event]) = keysMet events ++ [f.container.key.child f.next] := by
    simp [keysMet, List.filterMap_cons_some hmet]
  obtain ⟨hinside, houter⟩ := List.pairwise_cons.mp h.inside
  have hlast : f.container.key.child f.next < f.container.key.child (f.next + 1) :=
    EntryKey.lt_child_of_prefix (List.prefix_refl _) (Nat.lt_succ_self _)
  refine ⟨?_, List.pairwise_cons.mpr ⟨hinside, houter⟩, ?_⟩
  · rw [hkeys, List.pairwise_append]
    refine ⟨h.increasing, List.pairwise_singleton _ _, fun key hkey k hk => ?_⟩
    obtain rfl := List.mem_singleton.mp hk
    exact h.ahead f List.mem_cons_self key hkey
  · rw [hkeys]
    refine List.forall_mem_cons.mpr ⟨fun key hkey => ?_, fun g hg key hkey => ?_⟩
    · rcases List.mem_append.mp hkey with hold | hnew
      · exact lt_trans (h.ahead f List.mem_cons_self key hold) hlast
      · obtain rfl := List.mem_singleton.mp hnew
        exact hlast
    · rcases List.mem_append.mp hkey with hold | hnew
      · exact h.ahead g (List.mem_cons_of_mem f hg) key hold
      · obtain rfl := List.mem_singleton.mp hnew
        obtain ⟨i, hi, hin⟩ := hinside g hg
        exact EntryKey.lt_child_of_prefix (hin.trans (List.prefix_append _ _)) hi

/-- A container is met and opened; it lies in the entry of the innermost container that comes before the next one. -/
theorem enter (h : Ascends events (f :: outer)) (hnext : g.next = 0) {i : Nat} (hi : i < f.next)
    (hkey : g.container.key = f.container.key.child i) (hlast : ∀ key ∈ keysMet events, key ≤ g.container.key) :
    Ascends events (g :: f :: outer) := by
  obtain ⟨hinside, -⟩ := List.pairwise_cons.mp h.inside
  refine ⟨h.increasing, List.pairwise_cons.mpr ⟨List.forall_mem_cons.mpr ⟨?_, fun k hk => ?_⟩, h.inside⟩,
    List.forall_mem_cons.mpr ⟨fun key hmem => ?_, h.ahead⟩⟩
  · exact ⟨i, hi, hkey ▸ List.prefix_refl _⟩
  · obtain ⟨j, hj, hin⟩ := hinside k hk
    exact ⟨j, hj, hkey ▸ hin.trans (List.prefix_append _ _)⟩
  · rw [hnext]
    exact lt_of_le_of_lt (hlast key hmem) (EntryKey.lt_child _ _)

theorem moves (h : Ascends events frames) (hmoves : Moves plan file frames new frames') :
    Ascends (events ++ new) frames' := by
  cases hmoves with
  | stay => rwa [List.append_nil]
  | stop => exact ⟨by rw [List.append_nil]; exact h.increasing, .nil, List.forall_mem_nil _⟩
  | leave f outer => exact h.leave
  | leaf outer hkey => exact h.advance (congrArg some hkey)
  | @enter f g stage outer hkey hnext =>
    have hmet : (Event.enter g.container).met? = some (f.container.key.child f.next) := congrArg some hkey
    refine (h.advance hmet).enter hnext (Nat.lt_succ_self _) hkey fun key hmem => ?_
    rw [keysMet_append] at hmem
    rcases List.mem_append.mp hmem with hold | hnew
    · exact le_of_lt (hkey ▸ h.ahead f List.mem_cons_self key hold)
    · exact le_of_eq (List.mem_singleton.mp hnew)

end Ascends

/-! ## Containers in containers -/

/-- A container is met before all that lies in it. -/
def ParentsFirst (events : List Event) : Prop :=
  ∀ before event after, events = before ++ event :: after → ∀ key index, event.met? = some (key.child index) →
    ∃ c, .enter c ∈ before ∧ c.key = key

theorem ParentsFirst.of_append (h : ParentsFirst (events ++ new)) : ParentsFirst events := by
  rintro before event after rfl
  exact h before event (after ++ new) (List.append_assoc ..)

theorem ParentsFirst.append (h : ParentsFirst events)
    (hevent : ∀ key index, event.met? = some (key.child index) → ∃ c, .enter c ∈ events ∧ c.key = key) :
    ParentsFirst (events ++ [event]) := by
  intro before event' after hsplit
  rcases List.eq_nil_or_concat' after with rfl | ⟨rest, last, rfl⟩
  · obtain ⟨rfl, hlast⟩ := List.append_inj' hsplit rfl
    obtain rfl := List.singleton_inj.mp hlast
    exact hevent
  · rw [← List.cons_append, ← List.append_assoc] at hsplit
    exact h before event' rest (List.append_inj' hsplit rfl).1

/-- No container lies in one of its own kind. -/
def KindsApart (events : List Event) : Prop :=
  ∀ c c', .enter c ∈ events → .enter c' ∈ events → c.key <+: c'.key → c.key ≠ c'.key → c.kind ≠ c'.kind

/-- The open containers lie in one another, the innermost first; each has been opened by a later stage than the one
around it. -/
structure Stacked (plan : UnpackPlan) (events : List Event) (frames : List Frame) : Prop where
  stages : frames.Pairwise fun inner outer => outer.stage < inner.stage
  kinds : ∀ f ∈ frames, (plan.stages[f.stage]?).map Stage.kind = some f.container.kind
  entered : ∀ f ∈ frames, .enter f.container ∈ events
  /-- What lies around an open container is open. -/
  around : ∀ f ∈ frames, ∀ c, .enter c ∈ events → c.key <+: f.container.key → c ∈ frames.map Frame.container
  parentsFirst : ParentsFirst events
  kindsApart : KindsApart events

theorem mem_of_enter_mem_append {c : Opened} (h : .enter c ∈ events ++ [event]) (hevent : event ≠ .enter c) :
    .enter c ∈ events := by
  rcases List.mem_append.mp h with hold | hnew
  · exact hold
  · exact absurd (List.mem_singleton.mp hnew).symm hevent

/-- Of the stages of a plan no two open the same kind. -/
theorem kind_ne_of_lt {i j : Nat} {k l : Kind} (hplan : (plan.stages.map Stage.kind).Nodup)
    (hi : (plan.stages[i]?).map Stage.kind = some k) (hj : (plan.stages[j]?).map Stage.kind = some l) (hij : i < j) :
    k ≠ l := by
  rintro rfl
  rw [← List.getElem?_map] at hi hj
  obtain ⟨hlt, hk⟩ := List.getElem?_eq_some_iff.mp hi
  obtain ⟨hlt', hk'⟩ := List.getElem?_eq_some_iff.mp hj
  have hsame := (List.Nodup.getElem_inj_iff hplan).mp (hk.trans hk'.symm)
  omega

namespace Stacked

theorem leave (h : Stacked plan events (f :: outer)) (hascends : Ascends events (f :: outer)) :
    Stacked plan (events ++ [.leave f.container]) outer := by
  have hold : ∀ {c}, .enter c ∈ events ++ [.leave f.container] → .enter c ∈ events :=
    fun hc => mem_of_enter_mem_append hc nofun
  refine {
    stages := (List.pairwise_cons.mp h.stages).2
    kinds := fun g hg => h.kinds g (List.mem_cons_of_mem f hg)
    entered := fun g hg => List.mem_append_left _ (h.entered g (List.mem_cons_of_mem f hg))
    around := fun g hg c hc hbegins => ?_
    parentsFirst := h.parentsFirst.append nofun
    kindsApart := fun c c' hc hc' => h.kindsApart c c' (hold hc) (hold hc') }
  rcases List.mem_cons.mp (h.around g (List.mem_cons_of_mem f hg) c (hold hc) hbegins) with rfl | hmem
  · -- the container that is left lies in `g`, so it does not lie around it
    obtain ⟨i, -, hin⟩ := (List.pairwise_cons.mp hascends.inside).1 g hg
    exact absurd (hin.trans hbegins) <| not_child_prefix _ _
  · exact hmem

theorem leaf (h : Stacked plan events (f :: outer)) {l : Leaf} (hkey : l.key = f.container.key.child f.next) :
    Stacked plan (events ++ [.leaf l]) ({ f with next := f.next + 1 } :: outer) := by
  have hold : ∀ {c}, .enter c ∈ events ++ [.leaf l] → .enter c ∈ events :=
    fun hc => mem_of_enter_mem_append hc nofun
  obtain ⟨hstage, hstages⟩ := List.pairwise_cons.mp h.stages
  obtain ⟨hkind, hkinds⟩ := List.forall_mem_cons.mp h.kinds
  obtain ⟨hfirst, hentered⟩ := List.forall_mem_cons.mp h.entered
  obtain ⟨hinner, haround⟩ := List.forall_mem_cons.mp h.around
  exact {
    stages := List.pairwise_cons.mpr ⟨hstage, hstages⟩
    kinds := List.forall_mem_cons.mpr ⟨hkind, hkinds⟩
    entered := List.forall_mem_cons.mpr
      ⟨List.mem_append_left _ hfirst, fun g hg => List.mem_append_left _ (hentered g hg)⟩
    around := List.forall_mem_cons.mpr
      ⟨fun c hc => hinner c (hold hc), fun g hg c hc => haround g hg c (hold hc)⟩
    parentsFirst := h.parentsFirst.append fun key index hmet => by
      have hsame := hkey.symm.trans (Option.some.inj hmet)
      exact ⟨f.container, hfirst, List.append_inj_left' hsame rfl⟩
    kindsApart := fun c c' hc hc' => h.kindsApart c c' (hold hc) (hold hc') }

/-- What lies around the next entry of the innermost container is open, and what opens that entry is of a kind that no
open container has. -/
theorem ne_kind_of_around (h : Stacked plan events (f :: outer)) (hascends : Ascends events (f :: outer))
    (hplan : (plan.stages.map Stage.kind).Nodup) {c : Opened} (hc : .enter c ∈ events)
    (hbegins : c.key <+: f.container.key.child f.next) {stage : Stage} {position : Nat} (hlt : f.stage < position)
    (hstage : plan.stages[position]? = some stage) :
    c ∈ (f :: outer).map Frame.container ∧ c.kind ≠ stage.kind := by
  have hahead := hascends.ahead f List.mem_cons_self c.key (key_mem_keysMet hc)
  have hopen := h.around f List.mem_cons_self c hc (EntryKey.prefix_of_prefix_child hbegins (ne_of_lt hahead))
  refine ⟨hopen, ?_⟩
  obtain ⟨k, hk, rfl⟩ := List.mem_map.mp hopen
  have hle : k.stage ≤ f.stage := by
    rcases List.mem_cons.mp hk with rfl | hk
    · exact Nat.le_refl _
    · exact Nat.le_of_lt ((List.pairwise_cons.mp h.stages).1 k hk)
  exact kind_ne_of_lt hplan (h.kinds k hk) (congrArg (Option.map Stage.kind) hstage) (Nat.lt_of_le_of_lt hle hlt)

theorem enter (h : Stacked plan events (f :: outer)) (hascends : Ascends events (f :: outer))
    (hplan : (plan.stages.map Stage.kind).Nodup) (hkey : g.container.key = f.container.key.child f.next)
    {stage : Stage} (hkind : g.container.kind = stage.kind) (hlt : f.stage < g.stage)
    (hstage : plan.stages[g.stage]? = some stage) :
    Stacked plan (events ++ [.enter g.container]) (g :: { f with next := f.next + 1 } :: outer) := by
  have hcases : ∀ {c}, .enter c ∈ events ++ [.enter g.container] → .enter c ∈ events ∨ c = g.container := by
    intro c hc
    rcases List.mem_append.mp hc with hold | hnew
    · exact .inl hold
    · exact .inr (Event.enter.inj (List.mem_singleton.mp hnew))
  have hnew : ∀ c, .enter c ∈ events → c.key <+: g.container.key →
      c ∈ (f :: outer).map Frame.container ∧ c.kind ≠ stage.kind :=
    fun c hc hbegins => h.ne_kind_of_around hascends hplan hc (hkey ▸ hbegins) hlt hstage
  have hframes : (g :: { f with next := f.next + 1 } :: outer).map Frame.container =
      g.container :: (f :: outer).map Frame.container := rfl
  obtain ⟨hstageOuter, hstages⟩ := List.pairwise_cons.mp h.stages
  obtain ⟨hkindFirst, hkinds⟩ := List.forall_mem_cons.mp h.kinds
  obtain ⟨hfirst, hentered⟩ := List.forall_mem_cons.mp h.entered
  obtain ⟨hinner, haround⟩ := List.forall_mem_cons.mp h.around
  refine {
    stages := List.pairwise_cons.mpr ⟨List.forall_mem_cons.mpr ⟨hlt, fun k hk => (hstageOuter k hk).trans hlt⟩,
      List.pairwise_cons.mpr ⟨hstageOuter, hstages⟩⟩
    kinds := List.forall_mem_cons.mpr ⟨?_, List.forall_mem_cons.mpr ⟨hkindFirst, hkinds⟩⟩
    entered := List.forall_mem_cons.mpr ⟨List.mem_append_right _ (List.mem_singleton_self _),
      List.forall_mem_cons.mpr ⟨List.mem_append_left _ hfirst, fun k hk => List.mem_append_left _ (hentered k hk)⟩⟩
    around := ?_
    parentsFirst := h.parentsFirst.append fun key index hmet => ?_
    kindsApart := fun c c' hc hc' hbegins hne => ?_ }
  · rw [hstage, hkind]
    rfl
  · rw [hframes]
    intro k hk c hc hbegins
    rcases hcases hc with hold | rfl
    · refine List.mem_cons_of_mem _ ?_
      rcases List.mem_cons.mp hk with rfl | hk
      · exact (hnew c hold hbegins).1
      rcases List.mem_cons.mp hk with rfl | hk
      · exact hinner c hold hbegins
      · exact haround k hk c hold hbegins
    · exact List.mem_cons_self
  · have hsame := hkey.symm.trans (Option.some.inj hmet)
    exact ⟨f.container, hfirst, List.append_inj_left' hsame rfl⟩
  · rcases hcases hc with hold | rfl
    · rcases hcases hc' with hold' | rfl
      · exact h.kindsApart c c' hold hold' hbegins hne
      · exact hkind ▸ (hnew c hold hbegins).2
    · rcases hcases hc' with hold' | rfl
      · -- what was met before the container that is entered now does not lie in it
        have hahead := hascends.ahead f List.mem_cons_self c'.key (key_mem_keysMet hold')
        exact absurd (hkey ▸ hahead) (EntryKey.not_lt_of_prefix hbegins)
      · exact absurd rfl hne

theorem moves (h : Stacked plan events frames) (hascends : Ascends events frames)
    (hplan : (plan.stages.map Stage.kind).Nodup) (hmoves : Moves plan file frames new frames') :
    Stacked plan (events ++ new) frames' := by
  cases hmoves with
  | stay => rwa [List.append_nil]
  | stop =>
    rw [List.append_nil]
    exact ⟨.nil, List.forall_mem_nil _, List.forall_mem_nil _, List.forall_mem_nil _, h.parentsFirst, h.kindsApart⟩
  | leave f outer => exact h.leave hascends
  | leaf outer hkey => exact h.leaf hkey
  | enter outer hkey _ hkind hlt hstage => exact h.enter hascends hplan hkey hkind hlt hstage

end Stacked

/-! ## Any state of a walk -/

theorem Stacked.length_le (h : Stacked plan events frames) : frames.length ≤ plan.stages.length := by
  have hnodup : (frames.map Frame.stage).Nodup :=
    List.pairwise_map.mpr (h.stages.imp fun hlt => Nat.ne_of_gt hlt)
  have hsubset : frames.map Frame.stage ⊆ List.range plan.stages.length := by
    intro position hposition
    obtain ⟨f, hf, rfl⟩ := List.mem_map.mp hposition
    obtain ⟨stage, hstage, -⟩ := Option.map_eq_some_iff.mp (h.kinds f hf)
    exact List.mem_range.mpr (List.getElem?_eq_some_iff.mp hstage).1
  have hlength := (List.subperm_of_subset hnodup hsubset).length_le
  rwa [List.length_map, List.length_range] at hlength

/-- The keys and the open containers are in order, counting an event that is still pending. -/
structure Regular (name : String) (events : List Event) (w : Walk) : Prop where
  plan : w.plan = UnpackPlan.forInput name
  ascends : Ascends (events ++ w.pending.toList) w.frames
  stacked : Stacked w.plan (events ++ w.pending.toList) w.frames

theorem regular_of_start {told : List Record} (h : start name file = .ok (w, told)) : Regular name [] w := by
  unfold start at h
  simp only at h
  have hroot : ∀ event, event.met? = some [] → ParentsFirst ([] ++ [event]) := by
    intro event hevent
    refine ParentsFirst.append (fun before event after hsplit => ?_) fun key index hmet => ?_
    · exact absurd hsplit.symm (List.append_ne_nil_of_right_ne_nil before (List.cons_ne_nil event after))
    · exact absurd (Option.some.inj (hevent.symm.trans hmet)).symm (List.append_ne_nil_of_right_ne_nil key nofun)
  split at h
  · obtain ⟨rfl, -⟩ := Prod.mk.inj (Except.ok.inj h)
    refine ⟨rfl, ⟨List.pairwise_singleton _ _, .nil, List.forall_mem_nil _⟩, .nil, List.forall_mem_nil _,
      List.forall_mem_nil _, List.forall_mem_nil _, hroot _ rfl, fun c c' hc => ?_⟩
    exact nomatch List.mem_singleton.mp hc
  · next stage position hs =>
    obtain ⟨-, hstage, -⟩ := UnpackPlan.stage?_eq_some hs
    obtain ⟨opened, -, hstart⟩ := Result.bind_eq_ok.mp h
    obtain ⟨rfl, -⟩ := Prod.mk.inj (Except.ok.inj hstart)
    refine ⟨rfl, ⟨List.pairwise_singleton _ _, List.pairwise_singleton _ _, List.forall_mem_singleton.mpr ?_⟩,
      List.pairwise_singleton _ _, List.forall_mem_singleton.mpr ?_,
      List.forall_mem_singleton.mpr (List.mem_singleton_self _), List.forall_mem_singleton.mpr ?_, hroot _ rfl, ?_⟩
    · intro key hkey
      obtain rfl := List.mem_singleton.mp hkey
      exact EntryKey.lt_child [] 0
    · rw [hstage]
      rfl
    · intro c hc _
      obtain rfl := Event.enter.inj (List.mem_singleton.mp hc)
      exact List.mem_singleton_self _
    · intro c c' hc hc' _ hne
      obtain rfl := Event.enter.inj (List.mem_singleton.mp hc)
      obtain rfl := Event.enter.inj (List.mem_singleton.mp hc')
      exact absurd rfl hne

theorem Regular.next (h : Regular name events w) (file : Bytes) :
    Regular name (events ++ (w.next file).event?.toList) (w.next file).walk := by
  obtain ⟨hplan, new, hmoves, hevents⟩ := next_moves w file
  have hsame : (events ++ (w.next file).event?.toList) ++ (w.next file).walk.pending.toList =
      (events ++ w.pending.toList) ++ new := by
    rw [List.append_assoc, hevents, List.append_assoc]
  have hnodup : (w.plan.stages.map Stage.kind).Nodup := h.plan ▸ UnpackPlan.nodup_kinds_forInput name
  refine ⟨hplan.trans h.plan, ?_, ?_⟩
  · rw [hsame]
    exact h.ascends.moves hmoves
  · rw [hsame, hplan]
    exact h.stacked.moves h.ascends hnodup hmoves

theorem Reached.regular (h : Reached name events w) : Regular name events w := by
  induction h with
  | start hstart => exact regular_of_start hstart
  | next file _ ih => exact ih.next file

/-- The keys of what has been met increase in the order of keys, so none comes twice, and containers come before what
lies in them. -/
structure InOrder (events : List Event) : Prop where
  increasing : (keysMet events).Pairwise fun a b => EntryKey.lt a b = true
  distinct : (keysMet events).Nodup
  parentsFirst : ParentsFirst events

theorem Ascends.inOrder (h : Ascends (events ++ new) frames) (hparents : ParentsFirst (events ++ new)) :
    InOrder events := by
  have hall := h.increasing
  rw [keysMet_append] at hall
  have hincreasing := (List.pairwise_append.mp hall).1
  exact ⟨hincreasing.imp EntryKey.lt_iff.mpr, hincreasing.imp ne_of_lt, hparents.of_append⟩

/-- Whatever the file holds from step to step, the keys that a walk meets increase. At any time no more containers are
open than the plan has stages, which are at most three. Each open container has been opened by the stage of its kind,
the inner ones by later stages, and no container lies in one of its own kind. -/
theorem reached_in_order (h : Reached name events w) :
    InOrder events ∧ w.plan = UnpackPlan.forInput name ∧
      (w.frames.length ≤ w.plan.stages.length ∧ w.plan.stages.length ≤ 3) ∧
      (w.frames.Pairwise (fun inner outer => outer.stage < inner.stage) ∧
        ∀ f ∈ w.frames, (w.plan.stages[f.stage]?).map Stage.kind = some f.container.kind) ∧
      KindsApart events := by
  obtain ⟨hplan, hascends, hstacked⟩ := h.regular
  refine ⟨hascends.inOrder hstacked.parentsFirst, hplan, ⟨hstacked.length_le, ?_⟩,
    ⟨hstacked.stages, hstacked.kinds⟩, fun c c' hc hc' => ?_⟩
  · rw [hplan]
    exact UnpackPlan.length_forInput_le name
  · exact hstacked.kindsApart c c' (List.mem_append_left _ hc) (List.mem_append_left _ hc')

/-- An archive in an archive in an archive, with two texts under one name in the innermost. -/
def twinsFile : Bytes :=
  Zip.packAll [(⟨"p.aar", by decide, by decide⟩, Zip.packAll [(⟨"q.jar", by decide, by decide⟩,
    Zip.packAll [(⟨"t", by decide, by decide⟩, [104]), (⟨"t", by decide, by decide⟩, [105])])])]

set_option maxRecDepth 100000 in
theorem reached_in_order_twinsFile :
    ∃ events w, Reached "x.zip" events w ∧ keysMet events = [[], [0], [0, 0], [0, 0, 0], [0, 0, 1]] ∧
      w.frames.length = 3 ∧ InOrder events ∧ w.plan = UnpackPlan.forInput "x.zip" ∧
      (w.frames.length ≤ w.plan.stages.length ∧ w.plan.stages.length ≤ 3) ∧
      (w.frames.Pairwise (fun inner outer => outer.stage < inner.stage) ∧
        ∀ f ∈ w.frames, (w.plan.stages[f.stage]?).map Stage.kind = some f.container.kind) ∧
      KindsApart events := by
  have hrun : (start "x.zip" twinsFile).toOption.map (fun begun =>
      let s := advance twinsFile 5 ([], begun.1)
      (keysMet s.1, s.2.frames.length)) = some ([[], [0], [0, 0], [0, 0, 0], [0, 0, 1]], 3) := by
    decide +kernel
  cases hstart : start "x.zip" twinsFile with
  | error e =>
    rw [hstart] at hrun
    exact nomatch hrun
  | ok begun =>
    rw [hstart] at hrun
    obtain ⟨hkeys, hdepth⟩ := Prod.mk.inj (Option.some.inj hrun)
    have hbegun : Reached "x.zip" ([] : List Event) begun.1 := .start hstart
    have hreached := hbegun.advance twinsFile 5
    exact ⟨_, _, hreached, hkeys, hdepth, reached_in_order hreached⟩

end Walk
end SourceLabel
