import SourceLabel.Proofs.Relabel.Rebuild

/-!
# What the passes count

The first pass counts classes by what becomes of them, the second one counts the other entries and the nested
containers. Each count is a sum over the tree of the file.

Between the events of one entry the second pass closes every writer that it opens. So a container that is left
while a nested one is open is nested itself, and the last one to be left is the file, which is not counted.
-/
namespace SourceLabel

namespace Walk

/-- The class that an entry holds, if it is one that can be read. -/
def Leaf.class? (l : Leaf) : Option ClassFile :=
  if l.isClass then l.contents.toOption.bind fun data => (ClassFile.parse data).toOption
  else none

/-- A class without a label that can be read. -/
def Leaf.isUnlabelled (l : Leaf) : Bool :=
  l.class?.any fun c => c.label?.isNone

/-- A class with a label that is not the one that the policy wants. -/
def Leaf.isMislabelled (policy : Policy) (l : Leaf) : Bool :=
  l.class?.any fun c => c.label?.any fun old => policy.relabel c.name old ≠ old

namespace Tree

mutual

def containers : Tree → Nat
  | .leaf _ | .broken _ => 0
  | .container _ entries => containersAll entries + 1

def containersAll : List Tree → Nat
  | [] => 0
  | t :: ts => t.containers + containersAll ts

end

/-- The containers inside of the file, which is not counted if it is one. -/
def nestedContainers : Tree → Nat
  | .leaf _ | .broken _ => 0
  | .container _ entries => containersAll entries

end Tree
end Walk

namespace Relabel

open Walk Tree Result

variable {policy : Policy} {events : List (Except Error Event)} {l : Leaf}

/-! ## The first pass -/

theorem change_of_patch {p : Patched} (hc : l.isClass = true) (h : patch policy l = .ok p) :
    l.isUnlabelled = decide (p.change = .unlabelled) ∧ l.isMislabelled policy = decide (p.change = .changed) := by
  obtain ⟨data, c, hcontents, hparse, hrelabel⟩ := parse_of_patch h
  have hclass : l.class? = some c := by
    unfold Leaf.class?
    rw [if_pos hc, hcontents]
    exact congrArg Except.toOption hparse
  unfold Leaf.isUnlabelled Leaf.isMislabelled
  rw [hclass, Option.any_some, Option.any_some]
  have hr := relabels policy l.path c
  rw [hrelabel] at hr
  cases hr with
  | unlabelled _ hl => simp [hl]
  | kept hl hkept => simp [hl, hkept]
  | changed hl hne _ => simp [hl, hne]

/-- From one collection to another, these entries are counted. -/
structure Collection.Counts (policy : Policy) (c c' : Collection) (ls : List Leaf) : Prop where
  parsed : c'.parsed = c.parsed + ls.countP Leaf.isClass
  relabelled : c'.relabelled = c.relabelled + ls.countP (Leaf.isMislabelled policy)
  unlabelled : c'.unlabelled = c.unlabelled + ls.countP Leaf.isUnlabelled

namespace Collection

variable {c c' c'' : Collection}

theorem Counts.nil (policy : Policy) (c : Collection) : c.Counts policy c [] :=
  ⟨rfl, rfl, rfl⟩

theorem Counts.append {ls ls' : List Leaf} (h : c.Counts policy c' ls) (h' : c'.Counts policy c'' ls') :
    c.Counts policy c'' (ls ++ ls') := by
  constructor
  · rw [h'.parsed, h.parsed, List.countP_append, Nat.add_assoc]
  · rw [h'.relabelled, h.relabelled, List.countP_append, Nat.add_assoc]
  · rw [h'.unlabelled, h.unlabelled, List.countP_append, Nat.add_assoc]

theorem counts_other (hc : ¬ l.isClass = true) (policy : Policy) (c : Collection) : c.Counts policy c [l] := by
  have hclass : l.class? = none := if_neg hc
  constructor
  · rw [List.countP_singleton, if_neg hc]
    rfl
  · simp [Leaf.isMislabelled, hclass]
  · simp [Leaf.isUnlabelled, hclass]

theorem counts_take {p : Patched} (hc : l.isClass = true) (h : patch policy l = .ok p) (c : Collection) :
    c.Counts policy (c.take l p) [l] := by
  obtain ⟨hunlabelled, hmislabelled⟩ := change_of_patch hc h
  constructor
  · rw [List.countP_singleton, if_pos hc]
    rfl
  · rw [List.countP_singleton, hmislabelled]
    simp only [take, decide_eq_true_eq]
    split <;> rfl
  · rw [List.countP_singleton, hunlabelled]
    simp only [take, decide_eq_true_eq]
    split <;> rfl

theorem counts_step {event : Event} (h : (step policy c event).1 = .ok c') :
    c.Counts policy c' (leaves [.ok event]) := by
  cases event with
  | enter container | leave container =>
    obtain rfl := Except.ok.inj h
    exact .nil policy c
  | leaf l =>
    simp only [step] at h
    by_cases hc : l.isClass = true
    · rw [if_pos hc] at h
      cases hp : patch policy l with
      | error e => simp [hp] at h
      | ok p =>
        simp only [hp] at h
        obtain rfl := Except.ok.inj h
        exact counts_take hc hp c
    · rw [if_neg hc] at h
      obtain rfl := Except.ok.inj h
      exact counts_other hc policy c

end Collection

theorem counts_of_feed {c c' : Collection} (h : feed (Collection.step policy) c events = .ok c') :
    c.Counts policy c' (leaves events) := by
  induction events generalizing c with
  | nil =>
    obtain rfl := Except.ok.inj h
    exact .nil policy c
  | cons event events ih =>
    cases event with
    | error e => exact nomatch h
    | ok event =>
      obtain ⟨c₁, hs, hrest⟩ := feed_cons_eq_ok.mp h
      rw [leaves_split]
      exact (Collection.counts_step hs).append (ih hrest)

/-! ## The second pass -/

/-- From one assembly to another, so many entries that are no classes and so many nested containers are counted,
and as many writers are open as before. -/
structure Assembly.Counts (a a' : Assembly) (resources containers : Nat) : Prop where
  resources : a'.resources = a.resources + resources
  containers : a'.containers = a.containers + containers
  depth : a'.nested.length = a.nested.length

/-- The number of entries that are no classes. -/
def resourceCount (events : List (Except Error Event)) : Nat :=
  (leaves events).countP fun l => !l.isClass

@[simp] theorem resourceCount_append (xs ys : List (Except Error Event)) :
    resourceCount (xs ++ ys) = resourceCount xs + resourceCount ys := by
  unfold resourceCount
  simp

namespace Assembly

variable {a a' a'' : Assembly} {c : Opened} {pool : ClassPool} {r n r' n' : Nat}

theorem Counts.refl (a : Assembly) : a.Counts a 0 0 :=
  ⟨rfl, rfl, rfl⟩

theorem Counts.trans (h : a.Counts a' r n) (h' : a'.Counts a'' r' n') : a.Counts a'' (r + r') (n + n') :=
  ⟨by rw [h'.resources, h.resources, Nat.add_assoc], by rw [h'.containers, h.containers, Nat.add_assoc],
    h'.depth.trans h.depth⟩

theorem counts_withWriter {act : Zip.Writer → Except Error Unit × Zip.Writer} (h : a.withWriter act = .ok a') :
    a.Counts a' 0 0 := by
  obtain ⟨v, w, -, -, rfl⟩ := withWriter_eq_ok.mp h
  unfold withInner
  split
  · next hn => exact ⟨rfl, rfl, by rw [hn]; rfl⟩
  · exact ⟨rfl, rfl, rfl⟩

theorem counts_writeBare {data : Bytes} (h : a.writeBare data = .ok a') : a.Counts a' 0 0 := by
  unfold writeBare at h
  split at h
  · obtain rfl := Except.ok.inj h
    exact ⟨rfl, rfl, rfl⟩
  · exact nomatch h

theorem counts_copy (h : a.copy l = .ok a') : a.Counts a' 0 0 := by
  unfold copy at h
  split at h
  · exact counts_writeBare h
  · exact counts_withWriter h

theorem counts_write {data : Bytes} (h : a.write l data = .ok a') : a.Counts a' 0 0 := by
  unfold write at h
  split at h
  · exact counts_writeBare h
  · exact counts_withWriter (mapError_eq_ok.mp h)

theorem counts_leaf (h : a.leaf pool l = .ok a') : a.Counts a' (resourceCount [.ok (.leaf l)]) 0 := by
  have hcount : resourceCount [.ok (.leaf l)] = if l.isClass then 0 else 1 := by
    change [l].countP (fun l => !l.isClass) = _
    rw [List.countP_singleton]
    cases l.isClass <;> rfl
  rw [hcount]
  unfold leaf at h
  split at h
  · next hc =>
    rw [if_pos hc]
    split at h
    · exact nomatch h
    · split at h
      · exact counts_write h
      · exact counts_copy h
  · next hc =>
    rw [if_neg hc]
    obtain ⟨a₁, hcopy, hrest⟩ := bind_eq_ok.mp h
    obtain rfl := Except.ok.inj hrest
    have h₁ := counts_copy hcopy
    exact ⟨congrArg (· + 1) h₁.resources, h₁.containers, h₁.depth⟩

theorem counts_leave {w : Zip.Writer} {outer : List Zip.Writer} (hn : a.nested = w :: outer)
    (h : (a.leave c).1 = .ok a') : ({ a with nested := outer } : Assembly).Counts a' 0 1 := by
  unfold leave at h
  simp only [hn] at h
  split at h
  · cases h
  · split at h
    · cases h
    · obtain ⟨a₁, hpacked, rfl⟩ := map_eq_ok.mp (mapError_eq_ok.mp h)
      have h₁ := counts_withWriter hpacked
      exact ⟨h₁.resources, congrArg (· + 1) h₁.containers, h₁.depth⟩

theorem counts_leave_root (hn : a.nested = []) (h : (a.leave c).1 = .ok a') : a.Counts a' 0 0 := by
  unfold leave at h
  simp only [hn] at h
  split at h
  · cases h
  · split at h
    · cases h
    · obtain rfl := Except.ok.inj h
      exact ⟨rfl, rfl, congrArg List.length hn.symm⟩

end Assembly

theorem resourceCount_container (c : Opened) (entries : List Tree) :
    resourceCount (preorder (.container c entries)) = resourceCount (preorderAll entries) := by
  unfold resourceCount
  simp

mutual

/-- The second pass counts what lies in an entry, and leaves as many writers open as before. -/
theorem counts_tree (pool : ClassPool) {path : NestedPath} {key : EntryKey} {header? : Option Zip.Entry}
    (hpath : path.inner ≠ []) : (t : Tree) → t.At path key header? → (a a' : Assembly) →
    feed (Assembly.step pool) a t.preorder = .ok a' → a.Counts a' (resourceCount t.preorder) t.containers
  | .leaf l, _, a, a', h => by
    obtain ⟨a₁, hs, h⟩ := feed_cons_eq_ok.mp h
    obtain rfl := Except.ok.inj h
    exact Assembly.counts_leaf hs
  | .container c entries, hat, a, a', h => by
    obtain ⟨⟨rfl, rfl, -⟩, hentries⟩ := hat
    obtain ⟨a₁, hs₁, h⟩ := feed_cons_eq_ok.mp h
    obtain rfl := Assembly.enter_eq_ok hpath hs₁
    obtain ⟨a₂, h₂, h⟩ := feed_append_eq_ok.mp h
    obtain ⟨a₃, hs₃, h⟩ := feed_cons_eq_ok.mp h
    obtain rfl := Except.ok.inj h
    have hinner := counts_all pool entries hentries _ a₂ h₂
    obtain ⟨w, outer, hn⟩ := List.exists_cons_of_length_eq_add_one hinner.depth
    have hleave := Assembly.counts_leave hn hs₃
    rw [resourceCount_container]
    refine ⟨hleave.resources.trans hinner.resources, ?_, ?_⟩
    · rw [hleave.containers, containers, ← Nat.add_assoc]
      exact congrArg (· + 1) hinner.containers
    · have hdepth := hinner.depth
      rw [hn] at hdepth
      exact hleave.depth.trans (Nat.succ.inj hdepth)
  | .broken e, _, a, a', h => nomatch h

theorem counts_all (pool : ClassPool) {path : NestedPath} {key : EntryKey} {index : Nat} :
    (ts : List Tree) → AllAt path key index ts → (a a' : Assembly) →
    feed (Assembly.step pool) a (preorderAll ts) = .ok a' →
    a.Counts a' (resourceCount (preorderAll ts)) (containersAll ts)
  | [], _, a, a', h => by
    obtain rfl := Except.ok.inj h
    exact .refl a
  | t :: ts, hat, a, a', h => by
    obtain ⟨⟨header, ht⟩, hts⟩ := hat
    obtain ⟨a₁, h₁, h₂⟩ := feed_append_eq_ok.mp h
    have hchild : (path.child header.name.text).inner ≠ [] := by simp [NestedPath.child]
    have hfirst := counts_tree pool hchild t ht a a₁ h₁
    have hrest := counts_all pool ts hts a₁ a' h₂
    rw [preorderAll, resourceCount_append, containersAll]
    exact hfirst.trans hrest

end

/-- The second pass counts what lies in the file. The file itself is not counted. -/
theorem counts_file {pool : ClassPool} {plan : Container.PackPlan} {level : Deflate.Level} {name : String}
    {a : Assembly} (t : Tree) (hat : t.At ⟨name, []⟩ [] none)
    (h : feed (Assembly.step pool) { plan, level } t.preorder = .ok a) :
    a.resources = resourceCount t.preorder ∧ a.containers = t.nestedContainers := by
  cases t with
  | broken e => exact nomatch h
  | leaf l =>
    obtain ⟨a₁, hs, h⟩ := feed_cons_eq_ok.mp h
    obtain rfl := Except.ok.inj h
    have hleaf := Assembly.counts_leaf hs
    exact ⟨hleaf.resources.trans (Nat.zero_add _), hleaf.containers⟩
  | container c entries =>
    obtain ⟨⟨hpath, -, -⟩, hentries⟩ := hat
    obtain ⟨a₁, hs₁, h⟩ := feed_cons_eq_ok.mp h
    obtain rfl := Assembly.enter_root_eq_ok (by rw [hpath]) hs₁
    obtain ⟨a₂, h₂, h⟩ := feed_append_eq_ok.mp h
    obtain ⟨a₃, hs₃, h⟩ := feed_cons_eq_ok.mp h
    obtain rfl := Except.ok.inj h
    have hinner := counts_all pool entries hentries _ a₂ h₂
    have hleave := Assembly.counts_leave_root (List.length_eq_zero_iff.mp hinner.depth) hs₃
    have hcounts := hinner.trans hleave
    rw [resourceCount_container]
    exact ⟨hcounts.resources.trans (Nat.zero_add _), hcounts.containers.trans (Nat.zero_add _)⟩

end Relabel
end SourceLabel
