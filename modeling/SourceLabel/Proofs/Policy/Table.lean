import SourceLabel.Proofs.Policy

/-!
# The table of labels

The rules for labels are a table. Its rows are told apart by how the old label ends, and each row says what
the new label is, in terms of the short name of the class and its outer name. For every class and label the
table has exactly one answer.

A policy gives this answer unless the old label has a dot and the primary suffix that counts is something
else than a dot with no dot after it. The new label then does not end with that suffix, but with all that
the old one has from its last dot on.
-/
namespace SourceLabel

open Text

/-! ## Names of classes -/

/-- What follows the last package separator of a class name; the whole name if it has none. -/
structure IsShortName (className short : String) : Prop where
  noSeparator : ∀ c ∈ short.toList, isPackageSeparator c = false
  split : ∃ package : List Char, className.toList = package ++ short.toList ∧
    ∀ c, package.getLast? = some c → isPackageSeparator c = true

/-- A short name up to its first `$`, but all of it if it begins with one. -/
inductive IsOuterName (short : String) : String → Prop
  | whole : '$' ∉ short.toList ∨ short.toList.head? = some '$' → IsOuterName short short
  | cut {outer inner : String} : outer ≠ "" → '$' ∉ outer.toList → short = outer ++ "$" ++ inner →
      IsOuterName short outer

theorem isShortName_shortName (className : String) : IsShortName className (shortName className) := by
  refine ⟨fun c hc => ?_, throughLast isPackageSeparator className.toList, ?_, fun c hc => ?_⟩
  · rw [shortName_toList] at hc
    exact not_of_mem_afterLast hc
  · rw [shortName_toList, throughLast_append_afterLast]
  · rw [throughLast, List.getLast?_reverse] at hc
    simpa [hc] using List.head?_dropWhile_not (fun c => !isPackageSeparator c) className.toList.reverse

theorem IsShortName.eq_shortName {className short : String} (h : IsShortName className short) :
    short = shortName className := by
  obtain ⟨package, hsplit, hlast⟩ := h.split
  apply String.toList_inj.mp
  rw [shortName_toList, hsplit]
  rcases package.eq_nil_or_concat with rfl | ⟨front, c, rfl⟩
  · rw [List.nil_append, afterLast_of_forall h.noSeparator]
  · have hc : isPackageSeparator c = true := hlast c (by simp)
    have hback : afterLast isPackageSeparator (c :: short.toList) = short.toList :=
      afterLast_cons hc h.noSeparator
    rw [List.concat_eq_append, List.append_assoc, List.singleton_append,
      afterLast_append ⟨c, List.mem_cons_self, hc⟩, hback]

theorem outerName_of_head {short : String} (h : short.toList.head? = some '$') : outerName short = short :=
  if_pos h

theorem outerName_of_notMem {short : String} (h : '$' ∉ short.toList) : outerName short = short := by
  have hall : ∀ c ∈ short.toList, decide (c ≠ '$') = true := by
    intro c hc
    exact decide_eq_true fun he : c = '$' => h (he ▸ hc)
  unfold outerName
  dsimp only
  split
  · rfl
  · rw [List.takeWhile_eq_self_iff.mpr hall, String.ofList_toList]

theorem outerName_append {outer : String} (hne : outer ≠ "") (hfree : '$' ∉ outer.toList) (inner : String) :
    outerName (outer ++ "$" ++ inner) = outer := by
  have hall : ∀ c ∈ outer.toList, decide (c ≠ '$') = true := by
    intro c hc
    exact decide_eq_true fun he : c = '$' => hfree (he ▸ hc)
  have hlist : (outer ++ "$" ++ inner).toList = outer.toList ++ '$' :: inner.toList := by
    simp [String.toList_append]
  have hhead : ¬ (outer ++ "$" ++ inner).toList.head? = some '$' := by
    rw [hlist]
    cases hc : outer.toList with
    | nil => exact absurd (String.toList_eq_nil_iff.mp hc) hne
    | cons c cs =>
      rw [List.cons_append, List.head?_cons, Option.some.injEq]
      rintro rfl
      exact hfree (hc ▸ List.mem_cons_self)
  unfold outerName
  dsimp only
  rw [if_neg hhead, hlist, List.takeWhile_append_of_pos hall]
  simp

theorem isOuterName_outerName (short : String) : IsOuterName short (outerName short) := by
  by_cases hfree : '$' ∈ short.toList
  · by_cases hhead : short.toList.head? = some '$'
    · rw [outerName_of_head hhead]
      exact .whole (.inr hhead)
    · obtain ⟨front, back, hsplit, hfront⟩ := List.eq_append_cons_of_mem hfree
      have hshort : short = String.ofList front ++ "$" ++ String.ofList back := by
        apply String.toList_inj.mp
        simp [String.toList_append, hsplit]
      have hne : String.ofList front ≠ "" := by
        intro he
        have hnil : front = [] := by simpa using congrArg String.toList he
        rw [hsplit, hnil] at hhead
        exact hhead rfl
      have houter : '$' ∉ (String.ofList front).toList := by simpa using hfront
      rw [hshort, outerName_append hne houter]
      exact .cut hne houter rfl
  · rw [outerName_of_notMem hfree]
    exact .whole (.inl hfree)

theorem IsOuterName.eq_outerName {short outer : String} (h : IsOuterName short outer) : outer = outerName short := by
  cases h with
  | whole h =>
    rcases h with hfree | hhead
    · rw [outerName_of_notMem hfree]
    · rw [outerName_of_head hhead]
  | cut hne hfree hshort => rw [hshort, outerName_append hne hfree]

/-! ## Suffixes -/

/-- The first suffix of a list that the label ends with. -/
structure IsFirst (suffixes : List String) (label suffix : String) : Prop where
  ends : endsWith label suffix = true
  first : ∃ before after, suffixes = before ++ suffix :: after ∧ ∀ s ∈ before, endsWith label s = false

theorem isFirst_iff {suffixes : List String} {label suffix : String} :
    IsFirst suffixes label suffix ↔ suffixes.find? (endsWith label) = some suffix := by
  rw [List.find?_eq_some_iff_append]
  simp only [Bool.not_eq_true']
  exact ⟨fun ⟨hends, hfirst⟩ => ⟨hends, hfirst⟩, fun ⟨hends, hfirst⟩ => ⟨hends, hfirst⟩⟩

theorem extensionOr_split {label : String} (h : '.' ∈ label.toList) (suffix : String) :
    ∃ stem extension : String, label = stem ++ "." ++ extension ∧ '.' ∉ extension.toList ∧
      extensionOr suffix label = "." ++ extension := by
  obtain ⟨back, front, hsplit, hfree⟩ := List.eq_append_cons_of_mem (List.mem_reverse.mpr h)
  have hlist : label.toList = front.reverse ++ '.' :: back.reverse := by
    rw [← List.reverse_reverse label.toList, hsplit]
    simp
  have hall : ∀ c ∈ back.reverse, decide (c = '.') = false := by
    intro c hc
    exact decide_eq_false fun he : c = '.' => hfree (he ▸ List.mem_reverse.mp hc)
  have hlast : afterLast (· = '.') label.toList = back.reverse := by
    rw [hlist, afterLast_append ⟨'.', List.mem_cons_self, by decide⟩, afterLast_cons (by decide) hall]
  refine ⟨String.ofList front.reverse, String.ofList back.reverse, ?_, by simpa using hfree, ?_⟩
  · apply String.toList_inj.mp
    simp [String.toList_append, hlist]
  · unfold extensionOr
    dsimp only
    rw [if_pos h, hlast]
    apply String.toList_inj.mp
    simp [String.toList_append]

/-- A suffix of a label is all that the label has from its last dot on, or the label has no dot, if the one
comes in the place of the other. -/
theorem extensionOr_eq_iff {suffix label : String} (hl : endsWith label suffix = true) :
    extensionOr suffix label = suffix ↔ IsExtension suffix ∨ '.' ∉ label.toList := by
  constructor
  · intro he
    by_cases hdot : '.' ∈ label.toList
    · obtain ⟨-, extension, -, hfree, hext⟩ := extensionOr_split hdot suffix
      exact .inl ⟨extension.toList, by rw [← he, hext, String.toList_append]; rfl, hfree⟩
    · exact .inr hdot
  · rintro (hext | hdot)
    · exact hext.extensionOr_eq hl suffix
    · exact if_neg hdot

/-! ## The table -/

namespace Policy

/-- The rows of the table: `p.Tabled className label new` says that `new` is the label that the table has for a
class of this name with this label. -/
inductive Tabled (p : Policy) (className label : String) : String → Prop
  /-- The outer name and the suffix, for the first primary suffix that the label ends with. -/
  | primary {short outer suffix : String} : IsShortName className short → IsOuterName short outer →
      IsFirst p.primary label suffix → Tabled p className label (outer ++ suffix)
  /-- A loose suffix and a short name that is short enough. -/
  | shortened {short : String} : IsShortName className short → (∀ s ∈ p.primary, endsWith label s = false) →
      (∃ s ∈ p.loose, endsWith label s = true) → short.length ≤ p.threshold → Tabled p className label short
  /-- A loose suffix and a short name that is too long. -/
  | kept {short : String} : IsShortName className short → (∀ s ∈ p.primary, endsWith label s = false) →
      (∃ s ∈ p.loose, endsWith label s = true) → p.threshold < short.length → Tabled p className label label
  /-- No suffix of the policy. -/
  | bare {short : String} : IsShortName className short → (∀ s ∈ p.primary, endsWith label s = false) →
      (∀ s ∈ p.loose, endsWith label s = false) → Tabled p className label short

variable {p : Policy} {className label new suffix : String}

theorem tabled_iff_of_isFirst (h : IsFirst p.primary label suffix) :
    p.Tabled className label new ↔ new = outerName (shortName className) ++ suffix := by
  have hsome := isFirst_iff.mp h
  have hmem : suffix ∈ p.primary := List.mem_of_find?_eq_some hsome
  have hnot : ¬ ∀ s ∈ p.primary, endsWith label s = false := by
    intro hnone
    exact absurd h.ends (Bool.eq_false_iff.mp (hnone suffix hmem))
  constructor
  · intro ht
    cases ht with
    | primary hshort houter hfirst =>
      rw [houter.eq_outerName, hshort.eq_shortName, Option.some.inj ((isFirst_iff.mp hfirst).symm.trans hsome)]
    | shortened _ hnone | kept _ hnone | bare _ hnone => exact absurd hnone hnot
  · rintro rfl
    exact .primary (isShortName_shortName _) (isOuterName_outerName _) h

theorem tabled_iff_of_forall (h : ∀ s ∈ p.primary, endsWith label s = false) :
    p.Tabled className label new ↔ new = p.relabel className label := by
  have hprimary : p.primary.find? (endsWith label) = none :=
    List.find?_eq_none.mpr fun s hs => Bool.eq_false_iff.mp (h s hs)
  have hshort := isShortName_shortName className
  constructor
  · intro ht
    unfold relabel
    dsimp only
    rw [hprimary]
    dsimp only
    cases ht with
    | primary _ _ hfirst => exact nomatch hprimary.symm.trans (isFirst_iff.mp hfirst)
    | shortened hs _ hloose hle => rw [if_pos (List.any_eq_true.mpr hloose), ← hs.eq_shortName, if_pos hle]
    | kept hs _ hloose hlt =>
      rw [if_pos (List.any_eq_true.mpr hloose), ← hs.eq_shortName, if_neg (Nat.not_le.mpr hlt)]
    | bare hs _ hnone =>
      have hloose : ¬ p.loose.any (endsWith label) = true := by
        rw [List.any_eq_true]
        rintro ⟨s, hmem, hends⟩
        exact absurd hends (Bool.eq_false_iff.mp (hnone s hmem))
      rw [if_neg hloose, ← hs.eq_shortName]
  · rintro rfl
    unfold relabel
    dsimp only
    rw [hprimary]
    dsimp only
    split
    · next hloose =>
      split
      · next hle => exact .shortened hshort h (List.any_eq_true.mp hloose) hle
      · next hle => exact .kept hshort h (List.any_eq_true.mp hloose) (Nat.not_le.mp hle)
    · next hloose =>
      refine .bare hshort h fun s hs => Bool.eq_false_iff.mpr fun hends => hloose ?_
      exact List.any_eq_true.mpr ⟨s, hs, hends⟩

theorem exists_isFirst_or_forall (suffixes : List String) (label : String) :
    (∃ suffix, IsFirst suffixes label suffix) ∨ ∀ s ∈ suffixes, endsWith label s = false := by
  cases h : suffixes.find? (endsWith label) with
  | some suffix => exact .inl ⟨suffix, isFirst_iff.mpr h⟩
  | none => exact .inr fun s hs => Bool.eq_false_iff.mpr (List.find?_eq_none.mp h s hs)

/-- The table has one answer. -/
theorem existsUnique_tabled (p : Policy) (className label : String) : ∃! new, p.Tabled className label new := by
  rcases exists_isFirst_or_forall p.primary label with ⟨suffix, hfirst⟩ | hnone
  · exact ⟨_, (tabled_iff_of_isFirst hfirst).mpr rfl, fun _ h => (tabled_iff_of_isFirst hfirst).mp h⟩
  · exact ⟨_, (tabled_iff_of_forall hnone).mpr rfl, fun _ h => (tabled_iff_of_forall hnone).mp h⟩

theorem relabel_of_isFirst (h : IsFirst p.primary label suffix) (className : String) :
    p.relabel className label = outerName (shortName className) ++ extensionOr suffix label := by
  unfold relabel
  dsimp only
  rw [isFirst_iff.mp h]

/-- The table has one answer, and a policy gives this answer exactly if the first primary suffix that the label
ends with, if there is one, is a dot with no dot after it, or the label has no dot. Otherwise it gives the
outer name with what the label has from its last dot on. -/
theorem relabel_tabled_iff (p : Policy) (className label : String) :
    (∃! new, p.Tabled className label new) ∧
    (p.Tabled className label (p.relabel className label) ↔
      ∀ suffix, IsFirst p.primary label suffix → IsExtension suffix ∨ '.' ∉ label.toList) ∧
    ∀ suffix, IsFirst p.primary label suffix → '.' ∈ label.toList →
      ∃ stem extension : String, label = stem ++ "." ++ extension ∧ '.' ∉ extension.toList ∧
        p.relabel className label = outerName (shortName className) ++ ("." ++ extension) := by
  refine ⟨existsUnique_tabled p className label, ?_, ?_⟩
  · rcases exists_isFirst_or_forall p.primary label with ⟨suffix, hfirst⟩ | hnone
    · have hunique : ∀ s, IsFirst p.primary label s → s = suffix := fun s hs =>
        Option.some.inj ((isFirst_iff.mp hs).symm.trans (isFirst_iff.mp hfirst))
      have hanswer : p.Tabled className label (p.relabel className label) ↔
          IsExtension suffix ∨ '.' ∉ label.toList := by
        rw [tabled_iff_of_isFirst hfirst, relabel_of_isFirst hfirst, String.append_right_inj,
          extensionOr_eq_iff hfirst.ends]
      rw [hanswer]
      exact ⟨fun h s hs => hunique s hs ▸ h, fun h => h suffix hfirst⟩
    · have hno : ∀ suffix, ¬ IsFirst p.primary label suffix := by
        intro suffix hfirst
        have hmem : suffix ∈ p.primary := List.mem_of_find?_eq_some (isFirst_iff.mp hfirst)
        exact absurd hfirst.ends (Bool.eq_false_iff.mp (hnone suffix hmem))
      exact ⟨fun _ suffix hfirst => absurd hfirst (hno suffix), fun _ => (tabled_iff_of_forall hnone).mpr rfl⟩
  · intro suffix hfirst hdot
    obtain ⟨stem, extension, hlabel, hfree, hext⟩ := extensionOr_split hdot suffix
    exact ⟨stem, extension, hlabel, hfree, by rw [relabel_of_isFirst hfirst, hext]⟩

/-- A policy with a primary suffix of two parts. -/
def twoParts : Policy :=
  { primary := [".test.java"] }

/-- Half of such a suffix is lost. -/
theorem twoParts_untabled :
    twoParts.relabel "a/Foo" "X.test.java" = "Foo.java" ∧ twoParts.Tabled "a/Foo" "X.test.java" "Foo.test.java" ∧
      ¬ twoParts.Tabled "a/Foo" "X.test.java" (twoParts.relabel "a/Foo" "X.test.java") := by
  have hfirst : IsFirst twoParts.primary "X.test.java" ".test.java" := isFirst_iff.mpr (by decide)
  have hname : outerName (shortName "a/Foo") = "Foo" := by decide
  have hnew : twoParts.relabel "a/Foo" "X.test.java" = "Foo.java" := by decide
  refine ⟨hnew, ?_, ?_⟩
  · rw [tabled_iff_of_isFirst hfirst, hname]
    decide
  · rw [hnew, tabled_iff_of_isFirst hfirst, hname]
    decide

end Policy
end SourceLabel
