import SourceLabel.Proofs.Relabel.Collected
import SourceLabel.Proofs.Result
import SourceLabel.Proofs.Zip.Written

/-!
# The output is the input rebuilt

What a run should write is defined by recursion over the tree of the input: a container is an archive with
the comment of that container, to which its entries are added in their order. An entry is copied as it is
stored unless it is a class whose label changes or a container; those are packed anew.

A run walks over the input twice and keeps a stack of writers. Between the events of one entry the stack
stands still below its innermost writer, which is what carries the induction over the tree.
-/
namespace SourceLabel.Relabel

open Walk Tree

/-! ## Rebuilding -/

/-- The contents that an entry gets in place of its own: none unless it is a class whose label changes. -/
def replacement (policy : Policy) (l : Leaf) : Except Error (Option Bytes) :=
  if l.isClass then do
    let p ← patch policy l
    return if p.change = .changed then some p.classFile.toBytes else none
  else .ok none

/-- The writer after a call that it has taken. -/
def accepted : Except Error Unit × Zip.Writer → Except Error Zip.Writer
  | (.error e, _) => .error e
  | (.ok (), w) => .ok w

theorem accepted_mapError (r : Except Error Unit × Zip.Writer) (f : Error → Error) :
    accepted (r.1.mapError f, r.2) = (accepted r).mapError f := by
  obtain ⟨x, w⟩ := r
  cases x with
  | error e => rfl
  | ok u => rfl

mutual

/-- Adds what a tree stands for to an archive. -/
def addTree (policy : Policy) (level : Deflate.Level) (w : Zip.Writer) : Tree → Except Error Zip.Writer
  | .broken e => .error e
  | .leaf l =>
    match l.payload with
    | .plain _ => .error (.invalidFormat (.noHeader l.path.toString))
    | .packed header raw => do
      match ← replacement policy l with
      | none => accepted (w.copy header raw)
      | some data => accepted (w.add header data)
  | .container c entries => do
    let inner ← addAll policy level { level, comment := c.comment } entries
    let done ← inner.finish
    match c.header? with
    | none => .error (.invalidFormat (.noHeader c.path.toString))
    | some header => accepted (w.add header done.bytes)

/-- Adds what the trees stand for, in their order. -/
def addAll (policy : Policy) (level : Deflate.Level) (w : Zip.Writer) :
    List Tree → Except Error Zip.Writer
  | [] => .ok w
  | t :: ts => do
    let w ← addTree policy level w t
    addAll policy level w ts

end

/-- The bytes of the file that a tree stands for. -/
def rebuild (policy : Policy) (level : Deflate.Level) : Tree → Except Error Bytes
  | .broken e => .error e
  | .leaf l =>
    match l.payload with
    | .plain data => do return (← replacement policy l).getD data
    | .packed .. => .error (.invalidFormat .noOpenArchive)
  | .container c entries => do
    let w ← addAll policy level { level, comment := c.comment } entries
    let done ← w.finish
    return done.bytes

theorem replacement_of_pooled {policy : Policy} {pool : ClassPool} {l : Leaf} (h : Pooled policy pool l)
    (hc : l.isClass = true) :
    ∃ unit, pool.get? l.key = some unit ∧
      replacement policy l = .ok (if unit.relabelled then some unit.classFile.toBytes else none) := by
  obtain ⟨p, hp, hg⟩ := h hc
  refine ⟨_, hg, ?_⟩
  unfold replacement
  simp only [hc, hp, if_true, bind, Except.bind, pure, Except.pure, decide_eq_true_eq]

/-! ## The innermost writer -/

namespace Assembly

/-- The writer that entries are handed to. -/
def inner? (a : Assembly) : Option Zip.Writer :=
  match a.nested, a.target with
  | w :: _, _ => some w
  | [], .archive w => some w
  | [], .bare _ => none

/-- The assembly with another innermost writer. -/
def withInner (a : Assembly) (w : Zip.Writer) : Assembly :=
  match a.nested with
  | _ :: outer => { a with nested := w :: outer }
  | [] => { a with target := .archive w }

/-- The same target and the same writers are open. Only counts may differ. -/
structure Like (a b : Assembly) : Prop where
  plan : a.plan = b.plan
  level : a.level = b.level
  target : a.target = b.target
  nested : a.nested = b.nested

theorem Like.refl (a : Assembly) : Like a a := ⟨rfl, rfl, rfl, rfl⟩

theorem Like.trans {a b c : Assembly} (h : Like a b) (h' : Like b c) : Like a c :=
  ⟨h.plan.trans h'.plan, h.level.trans h'.level, h.target.trans h'.target, h.nested.trans h'.nested⟩

theorem Like.inner? {a b : Assembly} (h : Like a b) : a.inner? = b.inner? := by
  unfold Assembly.inner?
  rw [h.nested, h.target]

theorem Like.withInner {a b : Assembly} (h : Like a b) (w : Zip.Writer) :
    Like (a.withInner w) (b.withInner w) := by
  unfold Assembly.withInner
  rw [h.nested]
  cases b.nested with
  | nil => exact ⟨h.plan, h.level, rfl, rfl⟩
  | cons v outer => exact ⟨h.plan, h.level, h.target, rfl⟩

theorem inner?_withInner {a : Assembly} {v : Zip.Writer} (h : a.inner? = some v) (w : Zip.Writer) :
    (a.withInner w).inner? = some w := by
  unfold inner? withInner at *
  split at h
  · next hn => simp [hn]
  · next hn ht => simp [hn]
  · exact nomatch h

theorem withInner_withInner (a : Assembly) (v w : Zip.Writer) :
    (a.withInner v).withInner w = a.withInner w := by
  unfold withInner
  cases hn : a.nested with
  | nil => simp
  | cons u outer => simp

theorem level_withInner (a : Assembly) (w : Zip.Writer) : (a.withInner w).level = a.level := by
  unfold withInner
  split <;> rfl

/-- To hand something to the innermost writer changes that writer only. -/
theorem withWriter_eq_ok {a a' : Assembly} {act : Zip.Writer → Except Error Unit × Zip.Writer} :
    a.withWriter act = .ok a' ↔
      ∃ v w, a.inner? = some v ∧ accepted (act v) = .ok w ∧ a' = a.withInner w := by
  obtain ⟨plan, level, target, nested, resources, containers⟩ := a
  cases nested with
  | cons v outer =>
    simp only [withWriter, inner?, withInner, Option.some.injEq]
    rcases hact : act v with ⟨e | ⟨⟩, w⟩
    · simp [hact, accepted]
    · simp [hact, accepted, eq_comm]
  | nil =>
    cases target with
    | bare b => simp [withWriter, inner?]
    | archive v =>
      simp only [withWriter, inner?, withInner, Option.some.injEq]
      rcases hact : act v with ⟨e | ⟨⟩, w⟩
      · simp [hact, accepted]
      · simp [hact, accepted, eq_comm]

theorem like_withInner {a : Assembly} {v : Zip.Writer} (h : a.inner? = some v) : Like a (a.withInner v) := by
  unfold inner? at h
  unfold withInner
  split at h
  · next u outer hn =>
    obtain rfl := Option.some.inj h
    simp only [hn]
    exact ⟨rfl, rfl, rfl, hn⟩
  · next u hn ht =>
    obtain rfl := Option.some.inj h
    simp only [hn]
    exact ⟨rfl, rfl, ht, hn⟩
  · exact nomatch h

/-! ## Single events -/

variable {a a' : Assembly} {c : Opened} {l : Leaf} {header : Zip.Entry} {raw : Bytes}

theorem enter_eq_ok (hc : c.path.inner ≠ []) (h : a.enter c = .ok a') :
    a' = { a with nested := { level := a.level, comment := c.comment } :: a.nested } := by
  have he : ¬ c.path.inner.isEmpty = true := by simpa using hc
  unfold enter at h
  obtain ⟨_, _, hrest⟩ := Result.bind_eq_ok.mp h
  rw [if_neg he] at hrest
  exact (Except.ok.inj hrest).symm

theorem copy_eq_ok (hl : l.payload = .packed header raw) (h : a.copy l = .ok a') :
    ∃ v w, a.inner? = some v ∧ accepted (v.copy header raw) = .ok w ∧ a' = a.withInner w := by
  unfold copy at h
  simp only [hl] at h
  obtain ⟨v, w, hv, hw, ha⟩ := withWriter_eq_ok.mp h
  rw [accepted_mapError] at hw
  exact ⟨v, w, hv, Result.mapError_eq_ok.mp hw, ha⟩

theorem write_eq_ok {data : Bytes} (hl : l.payload = .packed header raw) (h : a.write l data = .ok a') :
    ∃ v w, a.inner? = some v ∧ accepted (v.add header data) = .ok w ∧ a' = a.withInner w := by
  have hh : l.header? = some header := by
    unfold Leaf.header?
    rw [hl]
  unfold write at h
  simp only [hh] at h
  exact withWriter_eq_ok.mp (Result.mapError_eq_ok.mp h)

theorem leaf_eq_ok {policy : Policy} {pool : ClassPool} {level : Deflate.Level}
    (hl : l.payload = .packed header raw) (hp : Pooled policy pool l) (h : a.leaf pool l = .ok a') :
    ∃ v w, a.inner? = some v ∧ addTree policy level v (.leaf l) = .ok w ∧ Like a' (a.withInner w) := by
  unfold leaf at h
  by_cases hc : l.isClass = true
  · obtain ⟨unit, hg, hr⟩ := replacement_of_pooled hp hc
    simp only [hc, hg, if_true] at h
    by_cases hu : unit.relabelled = true
    · rw [if_pos hu] at h hr
      obtain ⟨v, w, hv, hw, rfl⟩ := write_eq_ok hl h
      refine ⟨v, w, hv, ?_, .refl _⟩
      simp only [addTree, hl, hr, bind, Except.bind, hw]
    · rw [if_neg hu] at h hr
      obtain ⟨v, w, hv, hw, rfl⟩ := copy_eq_ok hl h
      refine ⟨v, w, hv, ?_, .refl _⟩
      simp only [addTree, hl, hr, bind, Except.bind, hw]
  · have hr : replacement policy l = .ok none := by
      unfold replacement
      rw [if_neg hc]
    rw [if_neg hc] at h
    obtain ⟨a₁, hcopy, hrest⟩ := Result.bind_eq_ok.mp h
    obtain rfl := Except.ok.inj hrest
    obtain ⟨v, w, hv, hw, rfl⟩ := copy_eq_ok hl hcopy
    refine ⟨v, w, hv, ?_, ⟨rfl, rfl, rfl, rfl⟩⟩
    simp only [addTree, hl, hr, bind, Except.bind, hw]

theorem leave_eq_ok {w : Zip.Writer} {outer : List Zip.Writer} (hn : a.nested = w :: outer)
    (hh : c.header? = some header) (h : (a.leave c).1 = .ok a') :
    ∃ done v u, w.finish = .ok done ∧ ({ a with nested := outer } : Assembly).inner? = some v ∧
      accepted (v.add header done.bytes) = .ok u ∧
      Like a' (({ a with nested := outer } : Assembly).withInner u) := by
  unfold leave at h
  simp only [hn] at h
  cases hf : w.finish with
  | error e => simp [hf] at h
  | ok done =>
    simp only [hf, hh] at h
    obtain ⟨a₁, hp, rfl⟩ := Result.map_eq_ok.mp (Result.mapError_eq_ok.mp h)
    obtain ⟨v, u, hv, hu, rfl⟩ := withWriter_eq_ok.mp hp
    exact ⟨done, v, u, rfl, hv, hu, rfl, rfl, rfl, rfl⟩

end Assembly

/-! ## The events of a tree -/

theorem payload_of_header? {l : Leaf} {header : Zip.Entry} (h : l.header? = some header) :
    ∃ raw, l.payload = .packed header raw := by
  unfold Leaf.header? at h
  split at h
  · exact nomatch h
  · next packed raw hp =>
    obtain rfl := Option.some.inj h
    exact ⟨raw, hp⟩

theorem payload_of_header?_none {l : Leaf} (h : l.header? = none) : ∃ data, l.payload = .plain data := by
  unfold Leaf.header? at h
  split at h
  · next data hp => exact ⟨data, hp⟩
  · exact absurd h (Option.some_ne_none _)

mutual

/-- The events of an entry add to the innermost writer what rebuilding adds, and leave all others as they
are. -/
theorem feed_tree (policy : Policy) (pool : ClassPool) {path : NestedPath} {key : EntryKey}
    {header : Zip.Entry} (hpath : path.inner ≠ []) :
    (t : Tree) → t.At path key (some header) → (∀ l ∈ leaves t.preorder, Pooled policy pool l) →
    (a a' : Assembly) → (v : Zip.Writer) → a.inner? = some v →
    feed (Assembly.step pool) a t.preorder = .ok a' →
    ∃ w, addTree policy a.level v t = .ok w ∧ (a'.Like (a.withInner w))
  | .leaf l, hat, hp, a, a', v, hv, h => by
    obtain ⟨raw, hl⟩ := payload_of_header? hat.2.2
    obtain ⟨a₁, hs, h⟩ := feed_cons_eq_ok.mp h
    obtain rfl := Except.ok.inj h
    obtain ⟨u, w, hu, hw, hlike⟩ := Assembly.leaf_eq_ok hl (hp l (List.mem_singleton_self l)) hs
    obtain rfl : u = v := Option.some.inj (hu.symm.trans hv)
    exact ⟨w, hw, hlike⟩
  | .container c entries, hat, hp, a, a', v, hv, h => by
    obtain ⟨⟨rfl, rfl, hh⟩, hentries⟩ := hat
    rw [leaves_container] at hp
    obtain ⟨a₁, hs₁, h⟩ := feed_cons_eq_ok.mp h
    obtain rfl := Assembly.enter_eq_ok hpath hs₁
    obtain ⟨a₂, h₂, h⟩ := feed_append_eq_ok.mp h
    obtain ⟨a₃, hs₃, h⟩ := feed_cons_eq_ok.mp h
    obtain rfl := Except.ok.inj h
    obtain ⟨w, hw, hlike⟩ := feed_all policy pool entries hentries hp _ a₂ _ rfl h₂
    have hn : a₂.nested = w :: a.nested := hlike.nested
    obtain ⟨done, u, x, hf, hu, hx, hlike'⟩ := Assembly.leave_eq_ok hn hh hs₃
    have hback : Assembly.Like { a₂ with nested := a.nested } a :=
      ⟨hlike.plan, hlike.level, hlike.target, rfl⟩
    rw [hback.inner?] at hu
    obtain rfl : u = v := Option.some.inj (hu.symm.trans hv)
    refine ⟨x, ?_, hlike'.trans (hback.withInner x)⟩
    simp only [addTree, bind, Except.bind, hw, hf, hh, hx]
  | .broken e, _, _, a, a', v, _, h => nomatch h

theorem feed_all (policy : Policy) (pool : ClassPool) {path : NestedPath} {key : EntryKey} {index : Nat} :
    (ts : List Tree) → AllAt path key index ts →
    (∀ l ∈ leaves (preorderAll ts), Pooled policy pool l) →
    (a a' : Assembly) → (v : Zip.Writer) → a.inner? = some v →
    feed (Assembly.step pool) a (preorderAll ts) = .ok a' →
    ∃ w, addAll policy a.level v ts = .ok w ∧ (a'.Like (a.withInner w))
  | [], _, _, a, a', v, hv, h => by
    obtain rfl := Except.ok.inj h
    exact ⟨v, rfl, Assembly.like_withInner hv⟩
  | t :: ts, hat, hp, a, a', v, hv, h => by
    rw [leaves_cons] at hp
    obtain ⟨⟨header, ht⟩, hts⟩ := hat
    obtain ⟨a₁, h₁, h₂⟩ := feed_append_eq_ok.mp h
    have hchild : (path.child header.name.text).inner ≠ [] := by simp [NestedPath.child]
    obtain ⟨w₁, hw₁, hlike₁⟩ := feed_tree policy pool hchild t ht
      (fun l hl => hp l (List.mem_append_left _ hl)) a a₁ v hv h₁
    have hv₁ : a₁.inner? = some w₁ := by
      rw [hlike₁.inner?, Assembly.inner?_withInner hv]
    obtain ⟨w, hw, hlike⟩ := feed_all policy pool ts hts
      (fun l hl => hp l (List.mem_append_right _ hl)) a₁ a' w₁ hv₁ h₂
    have hlevel : a₁.level = a.level := hlike₁.level.trans (Assembly.level_withInner a w₁)
    rw [hlevel] at hw
    refine ⟨w, ?_, ?_⟩
    · simp only [addAll, bind, Except.bind, hw₁, hw]
    · have hl := hlike.trans (hlike₁.withInner w)
      rwa [Assembly.withInner_withInner] at hl

end

/-! ## Whole files -/

namespace Assembly

variable {a a' : Assembly} {c : Opened} {l : Leaf}

theorem enter_root_eq_ok {plan : Container.PackPlan} {level : Deflate.Level} (hc : c.path.inner = [])
    (h : ({ plan, level } : Assembly).enter c = .ok a') :
    a' = { plan, level, target := .archive { level, comment := c.comment } } := by
  have he : c.path.inner.isEmpty = true := by simp [hc]
  unfold enter at h
  obtain ⟨_, _, hrest⟩ := Result.bind_eq_ok.mp h
  rw [if_pos he] at hrest
  exact (Except.ok.inj hrest).symm

theorem leave_root_eq_ok {w : Zip.Writer} (hn : a.nested = []) (ht : a.target = .archive w)
    (h : (a.leave c).1 = .ok a') :
    ∃ done, w.finish = .ok done ∧ a' = { a with target := .bare done.bytes, nested := [] } := by
  unfold leave at h
  simp only [hn, ht] at h
  cases hf : w.finish with
  | error e => simp [hf] at h
  | ok done =>
    simp only [hf] at h
    exact ⟨done, rfl, (Except.ok.inj h).symm⟩

theorem leaf_root_eq_ok {policy : Policy} {pool : ClassPool} {plan : Container.PackPlan}
    {level : Deflate.Level} {data bytes : Bytes} (hl : l.payload = .plain data)
    (hp : Pooled policy pool l) (h : ({ plan, level } : Assembly).leaf pool l = .ok a')
    (hf : a'.finish = .ok bytes) : rebuild policy level (.leaf l) = .ok bytes := by
  have hh : l.header? = none := by
    unfold Leaf.header?
    rw [hl]
  unfold leaf at h
  by_cases hc : l.isClass = true
  · obtain ⟨unit, hg, hr⟩ := replacement_of_pooled hp hc
    simp only [hc, hg, if_true] at h
    by_cases hu : unit.relabelled = true
    · rw [if_pos hu] at h hr
      simp only [write, hh, writeBare] at h
      obtain rfl := Except.ok.inj h
      obtain rfl := Except.ok.inj hf
      simp only [rebuild, hl, hr, bind, Except.bind]
      rfl
    · rw [if_neg hu] at h hr
      simp only [copy, hl, writeBare] at h
      obtain rfl := Except.ok.inj h
      obtain rfl := Except.ok.inj hf
      simp only [rebuild, hl, hr, bind, Except.bind]
      rfl
  · have hr : replacement policy l = .ok none := by
      unfold replacement
      rw [if_neg hc]
    rw [if_neg hc] at h
    simp only [copy, hl, writeBare, bind, Except.bind] at h
    obtain rfl := Except.ok.inj h
    obtain rfl := Except.ok.inj hf
    simp only [rebuild, hl, hr, bind, Except.bind]
    rfl

end Assembly

/-- What is assembled along the traversal of a file is the file rebuilt. -/
theorem rebuild_of_feed {policy : Policy} {pool : ClassPool} {plan : Container.PackPlan}
    {level : Deflate.Level} {name : String} {a : Assembly} {bytes : Bytes} (t : Tree)
    (hat : t.At ⟨name, []⟩ [] none) (hp : ∀ l ∈ leaves t.preorder, Pooled policy pool l)
    (h : feed (Assembly.step pool) { plan, level } t.preorder = .ok a) (hf : a.finish = .ok bytes) :
    rebuild policy level t = .ok bytes := by
  cases t with
  | broken e => exact nomatch h
  | leaf l =>
    obtain ⟨a₁, hs, h⟩ := feed_cons_eq_ok.mp h
    obtain rfl := Except.ok.inj h
    obtain ⟨data, hl⟩ := payload_of_header?_none hat.2.2
    exact Assembly.leaf_root_eq_ok hl (hp l (List.mem_singleton_self l)) hs hf
  | container c entries =>
    obtain ⟨⟨hpath, -, -⟩, hentries⟩ := hat
    rw [leaves_container] at hp
    obtain ⟨a₁, hs₁, h⟩ := feed_cons_eq_ok.mp h
    obtain rfl := Assembly.enter_root_eq_ok (by rw [hpath]) hs₁
    obtain ⟨a₂, h₂, h⟩ := feed_append_eq_ok.mp h
    obtain ⟨a₃, hs₃, h⟩ := feed_cons_eq_ok.mp h
    obtain rfl := Except.ok.inj h
    obtain ⟨w, hw, hlike⟩ := feed_all policy pool entries hentries hp _ a₂ _ rfl h₂
    obtain ⟨done, hdone, rfl⟩ := Assembly.leave_root_eq_ok hlike.nested hlike.target hs₃
    have hbytes : done.bytes = bytes := Except.ok.inj hf
    simp only [rebuild, bind, Except.bind, hw, hdone, hbytes]
    rfl

/-! ## Runs -/

open Session

/-- The first pass changes no file, and pools every class of the input. -/
theorem ends_collect {o : Options} {input : String} {w w' : World} {c : Collection} (hw : w.Unshared)
    (h : Ends (o.collect input) w c w') :
    w.Kept w' ∧ ∃ place, w.files.openFile input = .ok place ∧
      ∀ l ∈ leaves (ofFile (Files.fileName input) (w.files.contents place)).preorder,
        Pooled o.policy c.pool l := by
  unfold Options.collect at h
  obtain ⟨_, w₁, hs, h⟩ := ends_bind.mp h
  have hk := hs.kept_startPass hw
  obtain ⟨place, hopen, hfeed, hk'⟩ := ends_walkOver h (hk.unshared hw)
  rw [hk.files] at hopen hfeed
  exact ⟨hk.trans hk', place, hopen, pooled_of_file hfeed⟩

/-- The second pass leaves the rebuilt file where the output path leads. -/
theorem ends_writeOutput {o : Options} {input output : String} {pool : ClassPool} {w w' : World}
    {place : Place} {result : Assembly × Nat} (hw : w.Unshared)
    (hplace : w.files.openFile input = .ok place)
    (hp : ∀ l ∈ leaves (ofFile (Files.fileName input) (w.files.contents place)).preorder,
      Pooled o.policy pool l)
    (h : Ends (o.writeOutput input output pool) w result w') :
    w'.Unshared ∧ ∃ target bytes,
      rebuild o.policy o.level (ofFile (Files.fileName input) (w.files.contents place)) = .ok bytes ∧
      w'.files.openFile output = .ok target ∧ w'.files.contents target = bytes := by
  obtain ⟨a, size⟩ := result
  obtain ⟨w₁, temporary, files, w₂, bytes, files', hs, hc, hwalk, -, hfinish, -, hpublish, rfl⟩ :=
    ends_writeOutput_steps h
  have hk₁ := hs.kept_startPass hw
  rw [hk₁.files] at hc
  obtain ⟨hopen, hcontents⟩ := Files.openFile_createTemporary hplace hc
  have hw₁ : World.Unshared { w₁ with files } := hk₁.unshared hw
  obtain ⟨place', hopen', hfeed, hk₂⟩ := ends_walkOver hwalk hw₁
  obtain rfl : place = place' := Except.ok.inj (hopen.symm.trans hopen')
  have hk₃ := hk₂.trans (World.kept_meet (hk₂.unshared hw₁) .checkpoint)
  rw [hk₃.files] at hpublish
  obtain ⟨target, hopenOutput, hcontentsOutput⟩ := Files.openFile_publish (Files.node?_createTemporary hc) hpublish
  refine ⟨hk₃.unshared hw₁, target, bytes, ?_, hopenOutput, hcontentsOutput⟩
  have hfeed' : feed (Assembly.step pool)
      { plan := Container.PackPlan.forOutput (Files.fileName output), level := o.level }
      (ofFile (Files.fileName input) (w.files.contents place)).preorder = .ok a := by
    rw [← hcontents]
    exact hfeed
  exact rebuild_of_feed _ (ofFile_at _ _) hp hfeed' hfinish

/-- A run that ends well leaves the rebuilt input where the output path leads: nothing is lost, doubled,
put in another place or moved to another level. Nobody else may write to files meanwhile. -/
theorem run_rebuilds {o : Options} {input output : String} {w w' : World} {report : Report}
    (hw : w.Unshared) (h : Ends (o.run input output) w report w') :
    ∃ place target bytes, w.files.openFile input = .ok place ∧
      rebuild o.policy o.level (ofFile (Files.fileName input) (w.files.contents place)) = .ok bytes ∧
      w'.files.openFile output = .ok target ∧ w'.files.contents target = bytes := by
  unfold Options.run at h
  obtain ⟨_, w₁, h₁, h⟩ := ends_bind.mp h
  have hk₁ := h₁.kept_setPhase
  obtain ⟨_, w₂, h₂, h⟩ := ends_bind.mp h
  have hk₂ := hk₁.trans (h₂.kept_tell (hk₁.unshared hw))
  obtain ⟨c, w₃, h₃, h⟩ := ends_bind.mp h
  obtain ⟨hk, place, hopen, hp⟩ := ends_collect (hk₂.unshared hw) h₃
  have hk₃ := hk₂.trans hk
  rw [hk₂.files] at hopen hp
  obtain ⟨_, w₄, h₄, h⟩ := ends_bind.mp h
  have hk₄ := hk₃.trans (h₄.kept_tell (hk₃.unshared hw))
  obtain ⟨_, w₅, h₅, h⟩ := ends_bind.mp h
  have hk₅ := hk₄.trans h₅.kept_setPhase
  obtain ⟨_, w₆, h₆, h⟩ := ends_bind.mp h
  have hk₆ := hk₅.trans (h₆.kept_tell (hk₅.unshared hw))
  obtain ⟨⟨a, n⟩, w₇, h₇, h⟩ := ends_bind.mp h
  rw [← hk₆.files] at hopen hp
  obtain ⟨hw₇, target, bytes, hrebuild, houtput, hbytes⟩ :=
    ends_writeOutput (hk₆.unshared hw) hopen hp h₇
  obtain ⟨_, w₈, h₈, h⟩ := ends_bind.mp h
  have hk₈ := h₈.kept_setPhase
  obtain ⟨_, w₉, h₉, h⟩ := ends_bind.mp h
  have hk₉ := hk₈.trans (h₉.kept_tell (hk₈.unshared hw₇))
  obtain ⟨-, rfl⟩ := ends_pure.mp h
  rw [hk₆.files] at hopen hrebuild
  rw [← hk₉.files] at houtput hbytes
  exact ⟨place, target, bytes, hopen, hrebuild, houtput, hbytes⟩

/-- The world that holds an archive with an archive with a text in it. -/
def nestedWorld : World where
  files := {
    nodes := [(["in.zip"], .file (Zip.packAll [(⟨"b.jar", by decide, by decide⟩,
      Zip.packAll [(⟨"r.txt", by decide, by decide⟩, [104, 105])])]))] }

set_option maxRecDepth 100000 in
theorem ends_nestedWorld :
    ∃ w', Ends (({} : Options).run "in.zip" "out.zip") nestedWorld ⟨0, 0, 0, 1, 1, 218⟩ w' := by
  apply ends_of_toOption
  decide +kernel

theorem run_rebuilds_nestedWorld :
    ∃ report w', nestedWorld.Unshared ∧
      Ends (({} : Options).run "in.zip" "out.zip") nestedWorld report w' ∧
      ∃ place target bytes, nestedWorld.files.openFile "in.zip" = .ok place ∧
        rebuild ({} : Options).policy ({} : Options).level
          (ofFile (Files.fileName "in.zip") (nestedWorld.files.contents place)) = .ok bytes ∧
        w'.files.openFile "out.zip" = .ok target ∧ w'.files.contents target = bytes := by
  have hw : nestedWorld.Unshared := fun _ _ => rfl
  obtain ⟨w', h⟩ := ends_nestedWorld
  have hrebuilt := run_rebuilds hw h
  exact ⟨_, w', hw, h, hrebuilt⟩

end SourceLabel.Relabel
