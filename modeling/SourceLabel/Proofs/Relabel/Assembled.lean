import SourceLabel.Proofs.Relabel.Rebuild
import SourceLabel.Proofs.Walk.Sound

/-!
# Assembling is rebuilding

What the second pass assembles along the traversal of a file, and what rebuilding the tree of the file makes,
come to the same: both end well with the same archive, or both fail with the same failure. It may be that
only one of the two failures says where it happened.
-/
namespace SourceLabel

/-- The failure itself, or the failure with the place where it happened. -/
def Error.Places (e e' : Error) : Prop :=
  e' = e ∨ ∃ path, e' = e.inContainer path

/-- Both end well, with what `R` relates, or both fail, with the same failure up to its place. -/
inductive Result.Matching (R : α → β → Prop) : Except Error α → Except Error β → Prop
  | ok {x : α} {y : β} : R x y → Matching R (.ok x) (.ok y)
  | error {e e' : Error} : e.Places e' → Matching R (.error e) (.error e')

namespace Result

variable {R : α → β → Prop} {x : Except Error α} {y : Except Error β}

theorem Matching.bind {S : γ → δ → Prop} {f : α → Except Error γ} {g : β → Except Error δ}
    (h : Matching R x y) (hfg : ∀ a b, R a b → Matching S (f a) (g b)) : Matching S (x >>= f) (y >>= g) := by
  cases h with
  | ok h => exact hfg _ _ h
  | error h => exact .error h

theorem Matching.follow {S : α → γ → Prop} {g : β → Except Error γ} (h : Matching R x y)
    (hg : ∀ a b, R a b → ∃ c, g b = .ok c ∧ S a c) : Matching S x (y >>= g) := by
  cases h with
  | ok h =>
    obtain ⟨c, hc, hs⟩ := hg _ _ h
    change Matching S _ (g _)
    rw [hc]
    exact .ok hs
  | error h => exact .error h

theorem Matching.imp {S : α → β → Prop} (h : Matching R x y) (hRS : ∀ a b, R a b → S a b) : Matching S x y := by
  cases h with
  | ok h => exact .ok (hRS _ _ h)
  | error h => exact .error h

theorem Matching.eq_ok {a : α} (h : Matching R x y) (hx : x = .ok a) : ∃ b, y = .ok b ∧ R a b := by
  cases h with
  | ok h => exact ⟨_, rfl, Except.ok.inj hx ▸ h⟩
  | error _ => exact nomatch hx

theorem Matching.eq_error {e' : Error} (h : Matching R x y) (hy : y = .error e') :
    ∃ e, x = .error e ∧ e.Places e' := by
  cases h with
  | ok _ => exact nomatch hy
  | error h => exact ⟨_, rfl, Except.error.inj hy ▸ h⟩

end Result

namespace Relabel

open Walk Tree Result

theorem feed_append {σ : Type} {step : σ → Event → Except Error σ × List Act} {s : σ}
    {xs ys : List (Except Error Event)} : feed step s (xs ++ ys) = feed step s xs >>= fun s => feed step s ys := by
  induction xs generalizing s with
  | nil => rfl
  | cons x xs ih =>
    cases x with
    | error e => rfl
    | ok event =>
      rw [List.cons_append, feed, feed]
      cases (step s event).1 with
      | error e => rfl
      | ok s => exact ih

@[simp] theorem feed_singleton {σ : Type} {step : σ → Event → Except Error σ × List Act} {s : σ} {event : Event} :
    feed step s [.ok event] = (step s event).1 := by
  rw [feed]
  cases (step s event).1 with
  | error e => rfl
  | ok s => rfl

/-! ## Single events -/

namespace Assembly

variable {a a' : Assembly} {c : Opened} {l : Leaf} {header : Zip.Entry} {raw : Bytes} {v : Zip.Writer}

theorem plan_withInner (a : Assembly) (w : Zip.Writer) : (a.withInner w).plan = a.plan := by
  unfold withInner
  split <;> rfl

theorem withWriter_eq (hv : a.inner? = some v) (act : Zip.Writer → Except Error Unit × Zip.Writer) :
    a.withWriter act = (accepted (act v)).map a.withInner := by
  obtain ⟨plan, level, target, nested, resources, containers⟩ := a
  cases nested with
  | cons u outer =>
    obtain rfl : u = v := Option.some.inj hv
    rcases hact : act u with ⟨e | ⟨⟩, w⟩
    · simp only [withWriter, hact, accepted, Except.map]
    · simp only [withWriter, hact, accepted, Except.map, withInner]
  | nil =>
    cases target with
    | bare b => cases hv
    | archive u =>
      obtain rfl : u = v := Option.some.inj hv
      rcases hact : act u with ⟨e | ⟨⟩, w⟩
      · simp only [withWriter, hact, accepted, Except.map]
      · simp only [withWriter, hact, accepted, Except.map, withInner]

theorem withWriter_of_none (hn : a.inner? = none) (act : Zip.Writer → Except Error Unit × Zip.Writer) :
    a.withWriter act = .error (.invalidFormat .noOpenArchive) := by
  obtain ⟨plan, level, target, nested, resources, containers⟩ := a
  cases nested with
  | cons u outer => cases hn
  | nil =>
    cases target with
    | bare b => rfl
    | archive u => cases hn

/-- What is handed to the innermost writer changes that writer as it would change any. -/
theorem matching_withWriter (hv : a.inner? = some v) (act : Zip.Writer → Except Error Unit × Zip.Writer)
    (path : String) :
    Matching (fun w a' => a' = a.withInner w) (accepted (act v))
      ((a.withWriter act).mapError (Error.inContainer path)) := by
  rw [withWriter_eq hv]
  cases accepted (act v) with
  | error e => exact .error (.inr ⟨path, rfl⟩)
  | ok w => exact .ok rfl

theorem matching_copy (hv : a.inner? = some v) (hl : l.payload = .packed header raw) :
    Matching (fun w a' => a' = a.withInner w) (accepted (v.copy header raw)) (a.copy l) := by
  unfold copy
  simp only [hl]
  rw [withWriter_eq hv, accepted_mapError]
  cases accepted (v.copy header raw) with
  | error e => exact .error (.inr ⟨l.path.toString, rfl⟩)
  | ok w => exact .ok rfl

theorem matching_write (hv : a.inner? = some v) (hl : l.payload = .packed header raw) (data : Bytes) :
    Matching (fun w a' => a' = a.withInner w) (accepted (v.add header data)) (a.write l data) := by
  have hh : l.header? = some header := by
    unfold Leaf.header?
    rw [hl]
  unfold write
  simp only [hh]
  exact matching_withWriter hv (·.add header data) _

theorem matching_leaf {policy : Policy} {pool : ClassPool} (hv : a.inner? = some v)
    (hl : l.payload = .packed header raw) (hp : Pooled policy pool l) (level : Deflate.Level) :
    Matching (fun w a' => Like a' (a.withInner w)) (addTree policy level v (.leaf l)) (a.leaf pool l) := by
  unfold leaf
  by_cases hc : l.isClass = true
  · obtain ⟨unit, hg, hr⟩ := replacement_of_pooled hp hc
    simp only [addTree, hl, hc, hg, hr, if_true]
    by_cases hu : unit.relabelled = true
    · rw [if_pos hu, if_pos hu]
      exact (matching_write hv hl _).imp fun _ _ h => h ▸ .refl _
    · rw [if_neg hu, if_neg hu]
      exact (matching_copy hv hl).imp fun _ _ h => h ▸ .refl _
  · have hr : replacement policy l = .ok none := by
      unfold replacement
      rw [if_neg hc]
    simp only [addTree, hl, hr, if_neg hc]
    exact (matching_copy hv hl).follow fun _ _ h => ⟨_, rfl, h ▸ ⟨rfl, rfl, rfl, rfl⟩⟩

theorem enter_eq (hc : c.path.inner ≠ []) (hw : a.plan.wraps c.path = .ok ()) :
    a.enter c = .ok { a with nested := { level := a.level, comment := c.comment } :: a.nested } := by
  have he : ¬ c.path.inner.isEmpty = true := by simpa using hc
  unfold enter
  rw [hw]
  simp only [bind, Except.bind, if_neg he]
  rfl

theorem matching_leave {u : Zip.Writer} {outer : List Zip.Writer} (hn : a.nested = u :: outer)
    (hv : ({ a with nested := outer } : Assembly).inner? = some v) (hh : c.header? = some header) :
    Matching (fun w a' => Like a' (({ a with nested := outer } : Assembly).withInner w))
      (u.finish >>= fun done => accepted (v.add header done.bytes)) (a.leave c).1 := by
  unfold leave
  simp only [hn, hh]
  cases u.finish with
  | error e => exact .error (.inl rfl)
  | ok done =>
    have hadd := matching_withWriter hv (·.add header done.bytes) c.path.toString
    dsimp only [bind, Except.bind]
    generalize ({ a with nested := outer } : Assembly).withWriter (·.add header done.bytes) = x at hadd
    cases x with
    | error e => exact hadd.imp fun _ _ h => h ▸ .refl _
    | ok a' =>
      refine Matching.follow (g := fun a' => .ok { a' with containers := a'.containers + 1 }) hadd fun w b h => ?_
      exact ⟨_, rfl, h ▸ ⟨rfl, rfl, rfl, rfl⟩⟩

end Assembly

/-! ## The events of a tree -/

section

variable {policy : Policy} {pool : ClassPool} {name output : String}

mutual

/-- The events of an entry are assembled as the entry is rebuilt. -/
theorem matching_tree {path : NestedPath} {key : EntryKey} {header : Zip.Entry} (hpath : path.inner ≠ []) :
    (t : Tree) → t.At path key (some header) → t.Sound name → (∀ l ∈ leaves t.preorder, Pooled policy pool l) →
    (a : Assembly) → (v : Zip.Writer) → a.inner? = some v → a.plan = .forOutput output →
    Matching (fun w a' => a'.Like (a.withInner w)) (addTree policy a.level v t)
      (feed (Assembly.step pool) a t.preorder)
  | .leaf l, hat, _, hp, a, v, hv, _ => by
    obtain ⟨raw, hl⟩ := payload_of_header? hat.2.2
    rw [preorder, feed_singleton]
    exact Assembly.matching_leaf hv hl (hp l (List.mem_singleton_self l)) a.level
  | .container c entries, hat, hs, hp, a, v, hv, hplan => by
    obtain ⟨⟨rfl, rfl, hh⟩, hentries⟩ := hat
    obtain ⟨⟨⟨position, hopens⟩, -, -⟩, hsound⟩ := hs
    rw [leaves_container] at hp
    have henter : (Assembly.step pool a (.enter c)).1 = _ :=
      Assembly.enter_eq hpath (hplan ▸ hopens.wraps output)
    have hinner := matching_all entries hentries hsound hp
      { a with nested := { level := a.level, comment := c.comment } :: a.nested } _ rfl hplan
    rw [preorder, feed, henter]
    simp only [feed_append, addTree]
    refine hinner.bind fun u a₂ hlike => ?_
    rw [feed_singleton]
    have hn : a₂.nested = u :: a.nested := hlike.nested
    have hback : Assembly.Like { a₂ with nested := a.nested } a :=
      ⟨hlike.plan, hlike.level, hlike.target, rfl⟩
    have hleave := Assembly.matching_leave (v := v) hn (hback.inner?.trans hv) hh
    simp only [hh]
    exact hleave.imp fun w a' h => h.trans (hback.withInner w)
  | .broken e, _, _, _, a, v, _, _ => .error (.inl rfl)

theorem matching_all {path : NestedPath} {key : EntryKey} {index : Nat} :
    (ts : List Tree) → AllAt path key index ts → AllSound name ts →
    (∀ l ∈ leaves (preorderAll ts), Pooled policy pool l) →
    (a : Assembly) → (v : Zip.Writer) → a.inner? = some v → a.plan = .forOutput output →
    Matching (fun w a' => a'.Like (a.withInner w)) (addAll policy a.level v ts)
      (feed (Assembly.step pool) a (preorderAll ts))
  | [], _, _, _, a, v, hv, _ => .ok (Assembly.like_withInner hv)
  | t :: ts, hat, hs, hp, a, v, hv, hplan => by
    rw [leaves_cons] at hp
    obtain ⟨⟨header, ht⟩, hts⟩ := hat
    have hchild : (path.child header.name.text).inner ≠ [] := by simp [NestedPath.child]
    have hfirst := matching_tree hchild t ht hs.1 (fun l hl => hp l (List.mem_append_left _ hl)) a v hv hplan
    rw [preorderAll, feed_append, addAll]
    refine hfirst.bind fun w a₁ hlike => ?_
    have hv₁ : a₁.inner? = some w := by
      rw [hlike.inner?, Assembly.inner?_withInner hv]
    have hplan₁ : a₁.plan = .forOutput output :=
      hlike.plan.trans ((Assembly.plan_withInner a w).trans hplan)
    have hlevel : a₁.level = a.level := hlike.level.trans (Assembly.level_withInner a w)
    have hrest := matching_all ts hts hs.2 (fun l hl => hp l (List.mem_append_right _ hl)) a₁ w hv₁ hplan₁
    rw [hlevel] at hrest
    refine hrest.imp fun u a' h => ?_
    have hl := h.trans (hlike.withInner u)
    rwa [Assembly.withInner_withInner] at hl

end

/-! ## Whole files -/

namespace Assembly

variable {plan : Container.PackPlan} {level : Deflate.Level} {c : Opened} {l : Leaf}

theorem enter_root_eq (hc : c.path.inner = []) (hw : plan.wraps c.path = .ok ()) :
    ({ plan, level } : Assembly).enter c =
      .ok { plan, level, target := .archive { level, comment := c.comment } } := by
  have he : c.path.inner.isEmpty = true := by simp [hc]
  unfold enter
  rw [hw]
  simp only [bind, Except.bind, if_pos he]
  rfl

theorem matching_leaf_root {data : Bytes} (hl : l.payload = .plain data) (hp : Pooled policy pool l) :
    Matching (fun b b' => b = b') (rebuild policy level (.leaf l))
      (({ plan, level } : Assembly).leaf pool l >>= finish) := by
  have hh : l.header? = none := by
    unfold Leaf.header?
    rw [hl]
  unfold leaf
  by_cases hc : l.isClass = true
  · obtain ⟨unit, hg, hr⟩ := replacement_of_pooled hp hc
    simp only [rebuild, hl, hc, hg, hr, if_true]
    by_cases hu : unit.relabelled = true
    · simp only [if_pos hu, write, hh, writeBare]
      exact .ok rfl
    · simp only [if_neg hu, copy, hl, writeBare]
      exact .ok rfl
  · have hr : replacement policy l = .ok none := by
      unfold replacement
      rw [if_neg hc]
    simp only [rebuild, hl, hr, if_neg hc, copy, writeBare]
    exact .ok rfl

theorem matching_leave_root {a : Assembly} {w : Zip.Writer} (hn : a.nested = []) (ht : a.target = .archive w) :
    Matching (fun b b' => b = b') (w.finish >>= fun done => .ok done.bytes) ((a.leave c).1 >>= finish) := by
  unfold leave
  simp only [hn, ht]
  cases w.finish with
  | error e => exact .error (.inl rfl)
  | ok done => exact .ok rfl

end Assembly

/-- A file is assembled along its traversal as it is rebuilt. -/
theorem matching_file (output : String) (level : Deflate.Level) (t : Tree) (hat : t.At ⟨name, []⟩ [] none)
    (hs : t.Sound name) (hp : ∀ l ∈ leaves t.preorder, Pooled policy pool l) :
    Matching (fun b b' => b = b') (rebuild policy level t)
      (feed (Assembly.step pool) { plan := .forOutput output, level } t.preorder >>= Assembly.finish) := by
  cases t with
  | broken e => exact .error (.inl rfl)
  | leaf l =>
    obtain ⟨data, hl⟩ := payload_of_header?_none hat.2.2
    rw [preorder, feed_singleton]
    exact Assembly.matching_leaf_root hl (hp l (List.mem_singleton_self l))
  | container c entries =>
    obtain ⟨⟨hpath, -, -⟩, hentries⟩ := hat
    obtain ⟨⟨⟨position, hopens⟩, -, -⟩, hsound⟩ := hs
    rw [leaves_container] at hp
    have hroot : c.path.inner = [] := by rw [hpath]
    have henter : (Assembly.step pool { plan := .forOutput output, level } (.enter c)).1 = _ :=
      Assembly.enter_root_eq hroot (hopens.wraps output)
    have hinner := matching_all entries hentries hsound hp
      { plan := .forOutput output, level, target := .archive { level, comment := c.comment } } _ rfl
      (rfl : _ = Container.PackPlan.forOutput output)
    rw [preorder, feed, henter]
    simp only [feed_append, rebuild, bind_assoc]
    refine hinner.bind fun w a hlike => ?_
    rw [feed_singleton]
    exact Assembly.matching_leave_root hlike.nested hlike.target

end
end Relabel
end SourceLabel
