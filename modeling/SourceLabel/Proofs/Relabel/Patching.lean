import SourceLabel.Proofs.Walk.Opened
import SourceLabel.Relabel.Patch

/-!
# What becomes of a class

A class that has no label stays as it is, and so does one whose label is the one that the policy wants. Any other
one takes the new label or is refused, as a malformed class at its path. Before this the bytes of the class have
to be had, and to be read.
-/
namespace SourceLabel.Relabel

open Result

variable {policy : Policy} {path : NestedPath} {c : ClassFile} {p : Patched}

/-! ## Classes that were read -/

/-- What relabelling a class comes to. -/
inductive Relabels (policy : Policy) (path : NestedPath) (c : ClassFile) : Except Error Patched → Prop
  | unlabelled (told : List Record) : c.label? = none → Relabels policy path c (.ok ⟨c, .unlabelled, told⟩)
  | kept {old : String} : c.label? = some old → policy.relabel c.name old = old →
      Relabels policy path c (.ok ⟨c, .kept, [.labelKept path old]⟩)
  | changed {old : String} {c' : ClassFile} : c.label? = some old → policy.relabel c.name old ≠ old →
      c.setLabel (policy.relabel c.name old) = .ok c' →
      Relabels policy path c (.ok ⟨c', .changed, [.labelChanged path old (policy.relabel c.name old)]⟩)
  | refused {old : String} {cause : ClassError} : c.label? = some old → policy.relabel c.name old ≠ old →
      c.setLabel (policy.relabel c.name old) = .error cause →
      Relabels policy path c (.error (.malformedClass path.toString cause))

theorem relabels (policy : Policy) (path : NestedPath) (c : ClassFile) :
    Relabels policy path c (relabel policy path c) := by
  unfold relabel
  split
  · next hl => exact .unlabelled _ hl
  · next old hl =>
    dsimp only
    split
    · next hkept => exact .kept hl hkept
    · next hne =>
      split
      · next hset => exact .refused hl hne hset
      · next hset => exact .changed hl hne hset

theorem failsWith_relabel (policy : Policy) (path : NestedPath) (c : ClassFile) :
    FailsWith (fun e => ∃ cause, e = .malformedClass path.toString cause) (relabel policy path c) := by
  intro e he
  have h := relabels policy path c
  rw [he] at h
  cases h with
  | refused => exact ⟨_, rfl⟩

theorem setLabel_of_changed (h : relabel policy path c = .ok p) (hp : p.change = .changed) :
    ∃ old, c.label? = some old ∧ c.setLabel (policy.relabel c.name old) = .ok p.classFile := by
  have hr := relabels policy path c
  rw [h] at hr
  cases hr with
  | unlabelled | kept => exact nomatch hp
  | changed hl _ hset => exact ⟨_, hl, hset⟩

/-- A class whose label is wanted, if it has one that can be read, stays as it is. -/
theorem relabel_of_label? (path : NestedPath)
    (h : ∀ label, c.label? = some label → policy.relabel c.name label = label) :
    ∃ p, relabel policy path c = .ok p ∧ p.change ≠ .changed := by
  have hr := relabels policy path c
  generalize relabel policy path c = r at hr
  cases hr with
  | unlabelled | kept => exact ⟨_, rfl, nofun⟩
  | changed hl hne | refused hl hne => exact absurd (h _ hl) hne

/-! ## Entries -/

variable {l : Walk.Leaf} {data : Bytes}

theorem patch_of_contents_error {e : Error} (h : l.contents = .error e) (policy : Policy) :
    ∃ reason, patch policy l = .error (.malformedContainer l.path.toString reason) := by
  obtain ⟨reason, rfl⟩ := l.failsWith_contents e h
  unfold patch
  rw [h]
  exact ⟨reason, rfl⟩

theorem patch_of_parse_error {cause : ClassError} (h : l.contents = .ok data)
    (hparse : ClassFile.parse data = .error cause) (policy : Policy) :
    patch policy l = .error (.malformedClass l.path.toString cause) := by
  simp only [patch, h, bind, Except.bind, hparse]
  rfl

theorem patch_of_parse (h : l.contents = .ok data) (hparse : ClassFile.parse data = .ok c) (policy : Policy) :
    patch policy l = relabel policy l.path c := by
  simp only [patch, h, bind, Except.bind, hparse]

theorem parse_of_patch (h : patch policy l = .ok p) :
    ∃ data c, l.contents = .ok data ∧ ClassFile.parse data = .ok c ∧ relabel policy l.path c = .ok p := by
  cases hcontents : l.contents with
  | error e =>
    obtain ⟨reason, hfail⟩ := patch_of_contents_error hcontents policy
    exact nomatch h.symm.trans hfail
  | ok data =>
    cases hparse : ClassFile.parse data with
    | error cause => exact nomatch h.symm.trans (patch_of_parse_error hcontents hparse policy)
    | ok c => exact ⟨data, c, rfl, hparse, (patch_of_parse hcontents hparse policy).symm.trans h⟩

/-- A malformed class is at the path of the entry. It cannot be read, or its new label is refused. -/
theorem malformed_of_patch {path : String} {cause : ClassError}
    (h : patch policy l = .error (.malformedClass path cause)) :
    path = l.path.toString ∧ ∃ data, l.contents = .ok data ∧
      (ClassFile.parse data = .error cause ∨
        ∃ c, ClassFile.parse data = .ok c ∧ relabel policy l.path c = .error (.malformedClass path cause)) := by
  cases hcontents : l.contents with
  | error e =>
    obtain ⟨reason, hfail⟩ := patch_of_contents_error hcontents policy
    exact nomatch h.symm.trans hfail
  | ok data =>
    cases hparse : ClassFile.parse data with
    | error cause' =>
      have he := Except.error.inj (h.symm.trans (patch_of_parse_error hcontents hparse policy))
      obtain ⟨hpath, rfl⟩ := Error.malformedClass.inj he
      exact ⟨hpath, data, rfl, .inl hparse⟩
    | ok c =>
      have hrelabel := (patch_of_parse hcontents hparse policy).symm.trans h
      obtain ⟨cause', he⟩ := failsWith_relabel policy l.path c _ hrelabel
      exact ⟨(Error.malformedClass.inj he).1, data, rfl, .inr ⟨c, hparse, hrelabel⟩⟩

end SourceLabel.Relabel
