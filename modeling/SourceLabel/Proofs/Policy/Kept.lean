import SourceLabel.Proofs.Policy.Table

/-!
# Labels that are kept

A policy whose suffixes are all a dot with no dot after it takes every label to one that it keeps. What is kept
can be said without the policy being run: the outer name with a primary suffix, the short name, and a label
with a loose suffix for a class whose short name is too long to have been shortened.

The second of two runs may look at another row of the table than the first, since the outer name and the short
name are any text without a separator, the empty one too. Such a text has no dot, so it has none of the suffixes;
and behind it the last dot is that of the suffix that is put there.
-/
namespace SourceLabel.Policy

open Text

/-- The labels that fit a class. -/
inductive Fits (p : Policy) (className : String) : String → Prop
  | primary {suffix : String} : suffix ∈ p.primary → Fits p className (outerName (shortName className) ++ suffix)
  | bare : Fits p className (shortName className)
  | loose {label suffix : String} : (∀ s ∈ p.primary, endsWith label s = false) → suffix ∈ p.loose →
      endsWith label suffix = true → p.threshold < (shortName className).length → Fits p className label

variable {p : Policy} {className label : String}

theorem Tabled.fits {new : String} (h : p.Tabled className label new) : p.Fits className new := by
  cases h with
  | primary hshort houter hfirst =>
    rw [houter.eq_outerName, hshort.eq_shortName]
    exact .primary (List.mem_of_find?_eq_some (isFirst_iff.mp hfirst))
  | shortened hshort | bare hshort =>
    rw [hshort.eq_shortName]
    exact .bare
  | kept hshort hprimary hloose hlt =>
    obtain ⟨suffix, hmem, hends⟩ := hloose
    exact .loose hprimary hmem hends (hshort.eq_shortName ▸ hlt)

theorem Dotted.tabled_relabel (h : p.Dotted) (className label : String) :
    p.Tabled className label (p.relabel className label) := by
  rcases exists_isFirst_or_forall p.primary label with ⟨suffix, hfirst⟩ | hnone
  · have hmem : suffix ∈ p.primary := List.mem_of_find?_eq_some (isFirst_iff.mp hfirst)
    rw [tabled_iff_of_isFirst hfirst]
    exact h.relabel_primary hmem hfirst.ends
  · exact (tabled_iff_of_forall hnone).mpr rfl

theorem Dotted.fits_relabel (h : p.Dotted) (className label : String) :
    p.Fits className (p.relabel className label) :=
  (h.tabled_relabel className label).fits

theorem Dotted.relabel_of_fits (h : p.Dotted) (hf : p.Fits className label) : p.relabel className label = label := by
  cases hf with
  | primary hmem => exact h.relabel_primary hmem (endsWith_append _ _)
  | bare => exact h.relabel_of_notMem (dot_notMem_shortName className)
  | loose hprimary hmem hends hlt =>
    exact ((tabled_iff_of_forall hprimary).mp
      (.kept (isShortName_shortName _) hprimary ⟨_, hmem, hends⟩ hlt)).symm

theorem Dotted.relabel_eq_iff (h : p.Dotted) : p.relabel className label = label ↔ p.Fits className label := by
  constructor
  · intro hkept
    exact hkept ▸ h.fits_relabel className label
  · exact h.relabel_of_fits

theorem Dotted.relabel_relabel (h : p.Dotted) (className label : String) :
    p.relabel className (p.relabel className label) = p.relabel className label :=
  h.relabel_of_fits (h.fits_relabel className label)

/-- Labelling a class twice is labelling it once, and the labels that this leads to, which are also those that it
leaves as they are, are the ones that fit the class. -/
theorem Dotted.relabel_idempotent (h : p.Dotted) (className label : String) :
    p.relabel className (p.relabel className label) = p.relabel className label ∧
    (p.relabel className label = label ↔ p.Fits className label) ∧
    ((∃ old, p.relabel className old = label) ↔ p.Fits className label) := by
  refine ⟨h.relabel_relabel className label, h.relabel_eq_iff, ?_⟩
  constructor
  · rintro ⟨old, rfl⟩
    exact h.fits_relabel className old
  · intro hf
    exact ⟨label, h.relabel_of_fits hf⟩

/-- A policy one of whose suffixes is both primary and loose, and another one the end of all names that stop at
a dot. -/
def overlapping : Policy :=
  { primary := [".java", "."], loose := [".kt", ".java"] }

theorem dotted_overlapping : overlapping.Dotted := by
  unfold Dotted
  simp only [overlapping, List.cons_append, List.nil_append, List.forall_mem_cons]
  refine ⟨⟨"java".toList, by decide, by decide⟩, ⟨[], by decide, by decide⟩, ⟨"kt".toList, by decide, by decide⟩,
    ⟨"java".toList, by decide, by decide⟩, by simp⟩

theorem relabel_idempotent_overlapping :
    overlapping.Dotted ∧
    overlapping.relabel "com/$Proxy$Inner" (overlapping.relabel "com/$Proxy$Inner" "X.java") =
      overlapping.relabel "com/$Proxy$Inner" "X.java" ∧
    (overlapping.relabel "com/$Proxy$Inner" "X.java" = "X.java" ↔ overlapping.Fits "com/$Proxy$Inner" "X.java") ∧
    ((∃ old, overlapping.relabel "com/$Proxy$Inner" old = "X.java") ↔
      overlapping.Fits "com/$Proxy$Inner" "X.java") :=
  ⟨dotted_overlapping, dotted_overlapping.relabel_idempotent "com/$Proxy$Inner" "X.java"⟩

/-- A suffix with two dots may lose the first of them at one run, and what is left of it at the next. -/
example :
    let p : Policy := { primary := [".test.java"] }
    p.relabel "a/Foo" "X.test.java" = "Foo.java" ∧ p.relabel "a/Foo" "Foo.java" = "Foo" := by decide

end SourceLabel.Policy
