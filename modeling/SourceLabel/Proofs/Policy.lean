import Mathlib
import SourceLabel.Policy

/-!
# New labels are kept

If every suffix of a policy is a dot with no dot after it, the label that the policy gives to a class is the
one that it would give to the class if that were its label already. This is so because such a suffix is all
that a label has from its last dot on, and a short name has no dot.
-/
namespace SourceLabel

namespace Text

variable {p : Char → Bool} {front back : List Char}

theorem not_of_mem_afterLast {c : Char} {cs : List Char} (h : c ∈ afterLast p cs) : p c = false := by
  have hc := List.mem_takeWhile_imp (List.mem_reverse.mp h)
  simpa using hc

/-- What follows the last character of some kind is the same whatever stands in front, if there is one. -/
theorem afterLast_append (h : ∃ c ∈ back, p c = true) (front : List Char) :
    afterLast p (front ++ back) = afterLast p back := by
  obtain ⟨c, hmem, hc⟩ := h
  have hshort : ¬ (back.reverse.takeWhile fun c => !p c).length = back.reverse.length := by
    intro hl
    have heq := (List.takeWhile_prefix fun c => !p c).eq_of_length hl
    have hnot := List.takeWhile_eq_self_iff.mp heq c (List.mem_reverse.mpr hmem)
    simp [hc] at hnot
  unfold afterLast
  rw [List.reverse_append, List.takeWhile_append, if_neg hshort]

theorem afterLast_cons {c : Char} {cs : List Char} (hc : p c = true) (h : ∀ d ∈ cs, p d = false) :
    afterLast p (c :: cs) = cs := by
  have hall : ∀ d ∈ cs.reverse, (!p d) = true := by simpa using h
  unfold afterLast
  rw [List.reverse_cons, List.takeWhile_append_of_pos hall]
  simp [hc]

theorem afterLast_of_forall {cs : List Char} (h : ∀ d ∈ cs, p d = false) : afterLast p cs = cs := by
  have hall : ∀ d ∈ cs.reverse, (!p d) = true := by simpa using h
  unfold afterLast
  rw [List.takeWhile_eq_self_iff.mpr hall, List.reverse_reverse]

theorem endsWith_iff {s suffix : String} : endsWith s suffix = true ↔ suffix.toList <:+ s.toList :=
  List.isSuffixOf_iff_suffix

end Text

open Text

/-! ## Extensions -/

/-- The suffix is a dot, and there is no dot after it. -/
def IsExtension (suffix : String) : Prop :=
  ∃ cs : List Char, suffix.toList = '.' :: cs ∧ '.' ∉ cs

theorem IsExtension.afterLast {suffix label : String} (h : IsExtension suffix)
    (hl : endsWith label suffix = true) : suffix.toList = '.' :: Text.afterLast (· = '.') label.toList := by
  obtain ⟨cs, hs, hcs⟩ := h
  obtain ⟨front, hf⟩ := endsWith_iff.mp hl
  have hdot : ∃ c ∈ suffix.toList, decide (c = '.') = true := ⟨'.', by rw [hs]; exact List.mem_cons_self, by simp⟩
  have hfree : ∀ d ∈ cs, decide (d = '.') = false := by
    intro d hd
    simpa using fun he : d = '.' => hcs (he ▸ hd)
  rw [← hf, afterLast_append hdot, hs, afterLast_cons (by simp) hfree]

theorem IsExtension.unique {suffix suffix' label : String} (h : IsExtension suffix) (h' : IsExtension suffix')
    (hl : endsWith label suffix = true) (hl' : endsWith label suffix' = true) : suffix = suffix' := by
  apply String.toList_inj.mp
  rw [h.afterLast hl, h'.afterLast hl']

theorem IsExtension.extensionOr_eq {suffix label : String} (h : IsExtension suffix)
    (hl : endsWith label suffix = true) (other : String) : extensionOr other label = suffix := by
  have hs := h.afterLast hl
  have hdot : '.' ∈ label.toList := by
    obtain ⟨front, hf⟩ := endsWith_iff.mp hl
    rw [← hf, hs]
    simp
  unfold extensionOr
  rw [if_pos hdot, ← hs, String.ofList_toList]

/-! ## Policies -/

@[simp] theorem shortName_toList (className : String) :
    (shortName className).toList = afterLast isPackageSeparator className.toList :=
  String.toList_ofList

theorem dot_notMem_shortName (className : String) : '.' ∉ (shortName className).toList := by
  intro h
  rw [shortName_toList] at h
  exact absurd (not_of_mem_afterLast h) (by decide)

theorem shortName_shortName (className : String) : shortName (shortName className) = shortName className := by
  have hfree : ∀ c ∈ (shortName className).toList, isPackageSeparator c = false := by
    intro c hc
    rw [shortName_toList] at hc
    exact not_of_mem_afterLast hc
  rw [shortName, afterLast_of_forall hfree, String.ofList_toList]

/-- A dot separates packages, so the short name of a text with an extension is part of the extension. -/
theorem shortName_of_endsWith {suffix s t : String} (h : IsExtension suffix) (hs : endsWith s suffix = true)
    (ht : endsWith t suffix = true) : shortName s = shortName t := by
  obtain ⟨cs, hcs, -⟩ := h
  obtain ⟨front, hf⟩ := endsWith_iff.mp hs
  obtain ⟨front', hf'⟩ := endsWith_iff.mp ht
  have hdot : ∃ c ∈ suffix.toList, isPackageSeparator c = true :=
    ⟨'.', by rw [hcs]; exact List.mem_cons_self, by decide⟩
  rw [shortName, shortName, ← hf, ← hf', afterLast_append hdot, afterLast_append hdot]

@[simp] theorem endsWith_append (s suffix : String) : endsWith (s ++ suffix) suffix = true := by
  rw [endsWith_iff, String.toList_append]
  exact List.suffix_append _ _

namespace Policy

/-- Every suffix of the policy is a dot with no dot after it. -/
def Dotted (p : Policy) : Prop :=
  ∀ suffix ∈ p.primary ++ p.loose, IsExtension suffix

theorem dotted_default : ({} : Policy).Dotted := by
  intro suffix h
  have hs : suffix = ".java" ∨ suffix = ".kt" := by simpa using h
  rcases hs with rfl | rfl
  · exact ⟨['j', 'a', 'v', 'a'], by decide, by decide⟩
  · exact ⟨['k', 't'], by decide, by decide⟩

variable {p : Policy} {className label : String}

theorem Dotted.mem_of_endsWith (h : p.Dotted) {suffix : String} (hs : suffix ∈ p.primary ++ p.loose)
    (hl : endsWith label suffix = true) : '.' ∈ label.toList := by
  obtain ⟨cs, hcs, -⟩ := h suffix hs
  obtain ⟨front, hf⟩ := endsWith_iff.mp hl
  rw [← hf, hcs]
  simp

/-- A label with a primary suffix keeps that suffix. -/
theorem Dotted.relabel_primary (h : p.Dotted) {suffix : String} (hs : suffix ∈ p.primary)
    (hl : endsWith label suffix = true) :
    p.relabel className label = outerName (shortName className) ++ suffix := by
  have hext := h suffix (List.mem_append_left _ hs)
  unfold relabel
  dsimp only
  split
  · rw [hext.extensionOr_eq hl]
  · next hnone => exact absurd hl (List.find?_eq_none.mp hnone suffix hs)

theorem Dotted.relabel_of_notMem (h : p.Dotted) (hl : '.' ∉ label.toList) :
    p.relabel className label = shortName className := by
  have hno : ∀ suffix ∈ p.primary ++ p.loose, ¬ endsWith label suffix = true :=
    fun suffix hs he => hl (h.mem_of_endsWith hs he)
  have hprimary : p.primary.find? (endsWith label) = none :=
    List.find?_eq_none.mpr fun suffix hs => hno suffix (List.mem_append_left _ hs)
  have hloose : p.loose.any (endsWith label) = false := by
    rw [List.any_eq_false]
    exact fun suffix hs => hno suffix (List.mem_append_right _ hs)
  unfold relabel
  simp only [hprimary, hloose, Bool.false_eq_true, if_false]

/-- The new label has a primary suffix, or is the short name of the class, or the old label. -/
theorem relabel_cases (p : Policy) (className label : String) :
    (∃ suffix ∈ p.primary, endsWith label suffix = true) ∨ p.relabel className label = shortName className ∨
      p.relabel className label = label := by
  unfold relabel
  dsimp only
  split
  · next suffix hfind => exact .inl ⟨suffix, List.mem_of_find?_eq_some hfind, List.find?_some hfind⟩
  · split
    · split
      · exact .inr (.inl rfl)
      · exact .inr (.inr rfl)
    · exact .inr (.inl rfl)

theorem relabel_congr {className' : String} (h : shortName className' = shortName className) (label : String) :
    p.relabel className' label = p.relabel className label := by
  unfold relabel
  rw [h]

/-- If a class is called as it is labelled, its new label leads to the same short name. -/
theorem Dotted.shortName_relabel (h : p.Dotted) (label : String) :
    shortName (p.relabel label label) = shortName label := by
  rcases p.relabel_cases label label with ⟨suffix, hs, hl⟩ | hshort | hkept
  · rw [h.relabel_primary hs hl]
    exact shortName_of_endsWith (h suffix (List.mem_append_left _ hs)) (endsWith_append _ _) hl
  · rw [hshort, shortName_shortName]
  · rw [hkept]

end Policy
end SourceLabel
