import SourceLabel.Proofs.Policy.Table

/-!
# Labels of nested classes

A class inside another has the name of that class, a `$` and a name of its own. Where a primary suffix counts,
the new label is made of the outer name, and nesting a class more deeply does not change its outer name: the
first `$` stays where it is. So a nested class gets the label of the class that it is nested in.

This is not so if the short name begins with a `$`. Such a name is not taken apart at all, and all names of
the nested classes stay in the new label.
-/
namespace SourceLabel

open Text

/-! ## Names -/

def innerName (className inner : String) : String :=
  className ++ "$" ++ inner

/-- The name of a class that is nested in another one, level by level. -/
def nestedName : (className : String) → (inners : List String) → String
  | className, [] => className
  | className, inner :: inners => nestedName (innerName className inner) inners

/-- The name does not leave its package. -/
def IsSimple (name : String) : Prop :=
  ∀ c ∈ name.toList, isPackageSeparator c = false

instance (name : String) : Decidable (IsSimple name) :=
  List.decidableBAll (fun c => isPackageSeparator c = false) name.toList

@[simp] theorem toList_innerName (className inner : String) :
    (innerName className inner).toList = className.toList ++ '$' :: inner.toList := by
  simp [innerName, String.toList_append]

theorem innerName_ne_empty (className inner : String) : innerName className inner ≠ "" := by
  intro he
  have hnil := congrArg String.toList he
  simp at hnil

theorem afterLast_append_of_forall {p : Char → Bool} {back : List Char} (h : ∀ c ∈ back, p c = false)
    (front : List Char) : afterLast p (front ++ back) = afterLast p front ++ back := by
  have hall : ∀ c ∈ back.reverse, (!p c) = true := by simpa using h
  unfold afterLast
  rw [List.reverse_append, List.takeWhile_append_of_pos hall, List.reverse_append, List.reverse_reverse]

theorem shortName_innerName {inner : String} (h : IsSimple inner) (className : String) :
    shortName (innerName className inner) = innerName (shortName className) inner := by
  have hback : ∀ c ∈ '$' :: inner.toList, isPackageSeparator c = false :=
    List.forall_mem_cons.mpr ⟨by decide, h⟩
  apply String.toList_inj.mp
  rw [shortName_toList, toList_innerName, toList_innerName, shortName_toList, afterLast_append_of_forall hback]

theorem head?_innerName {className : String} (h : className ≠ "") (inner : String) :
    (innerName className inner).toList.head? = className.toList.head? := by
  have hne : className.toList ≠ [] := fun hnil => h (String.toList_eq_nil_iff.mp hnil)
  rw [toList_innerName, List.head?_append_of_ne_nil _ hne]

/-- No deeper nesting makes a name shorter. -/
theorem length_le_nestedName (className : String) (inners : List String) :
    className.length ≤ (nestedName className inners).length := by
  induction inners generalizing className with
  | nil => exact Nat.le_refl _
  | cons inner inners ih =>
    refine Nat.le_trans ?_ (ih (innerName className inner))
    rw [innerName, String.length_append, String.length_append]
    omega

theorem nestedName_ne {inners : List String} (h : inners ≠ []) (className : String) :
    nestedName className inners ≠ className := by
  obtain ⟨inner, inners, rfl⟩ := List.exists_cons_of_ne_nil h
  intro he
  have hle := length_le_nestedName (innerName className inner) inners
  rw [← nestedName, he, innerName, String.length_append, String.length_append] at hle
  have hone : "$".length = 1 := rfl
  omega

/-! ## Outer names -/

/-- An outer name has no `$`, unless the short name begins with one. -/
theorem dollar_notMem_outerName {short : String} (h : short.toList.head? ≠ some '$') :
    '$' ∉ (outerName short).toList := by
  have houter := isOuterName_outerName short
  generalize outerName short = outer at houter
  cases houter with
  | whole hwhole => exact hwhole.resolve_right h
  | cut _ hfree _ => exact hfree

/-- The outer name of a nested class is that of the class that it is nested in. -/
theorem outerName_innerName {short : String} (hne : short ≠ "") (hhead : short.toList.head? ≠ some '$')
    (inner : String) : outerName (innerName short inner) = outerName short := by
  have houter := isOuterName_outerName short
  generalize outerName short = outer at houter
  cases houter with
  | whole hwhole => exact outerName_append hne (hwhole.resolve_right hhead) inner
  | @cut _ rest houter hfree hshort =>
    have hname : innerName short inner = outer ++ "$" ++ (rest ++ "$" ++ inner) := by
      rw [innerName, hshort]
      simp only [String.append_assoc]
    rw [hname, outerName_append houter hfree]

/-- At any depth the outer name stays the same, or all names are kept if the first begins with a `$`. -/
theorem outerName_nestedName {className : String} {inners : List String} (hne : shortName className ≠ "")
    (hinners : ∀ inner ∈ inners, IsSimple inner) :
    outerName (shortName (nestedName className inners)) =
      if (shortName className).toList.head? = some '$' then nestedName (shortName className) inners
      else outerName (shortName className) := by
  induction inners generalizing className with
  | nil =>
    rw [nestedName, nestedName]
    split
    · next hhead => exact outerName_of_head hhead
    · rfl
  | cons inner inners ih =>
    obtain ⟨hinner, hinners⟩ := List.forall_mem_cons.mp hinners
    have hshort := shortName_innerName hinner className
    have hne' : shortName (innerName className inner) ≠ "" := hshort ▸ innerName_ne_empty _ inner
    rw [nestedName, ih hne' hinners, hshort, head?_innerName hne, nestedName]
    split
    · rfl
    · next hhead => exact outerName_innerName hne hhead inner

/-! ## Labels -/

namespace Policy

variable {p : Policy} {className label : String} {inners : List String}

/-- A class that is nested in another one gets the same label as that one if its old label has a primary suffix,
unless the short name begins with a `$`. The label is made of the outer name, which has no `$`; if the short
name begins with one, it is made of all the names. -/
theorem relabel_nestedName_iff (hclass : shortName className ≠ "") (hinners : ∀ inner ∈ inners, IsSimple inner)
    (hlabel : ∃ suffix ∈ p.primary, endsWith label suffix = true) :
    (p.relabel (nestedName className inners) label = p.relabel className label ↔
      inners = [] ∨ (shortName className).toList.head? ≠ some '$') ∧
    ∃ suffix, IsFirst p.primary label suffix ∧
      p.relabel (nestedName className inners) label =
        (if (shortName className).toList.head? = some '$' then nestedName (shortName className) inners
          else outerName (shortName className)) ++ extensionOr suffix label ∧
      ((shortName className).toList.head? ≠ some '$' → '$' ∉ (outerName (shortName className)).toList) := by
  obtain ⟨suffix, hfirst⟩ : ∃ suffix, IsFirst p.primary label suffix := by
    rcases exists_isFirst_or_forall p.primary label with hfirst | hnone
    · exact hfirst
    · obtain ⟨s, hs, hends⟩ := hlabel
      exact absurd hends (Bool.eq_false_iff.mp (hnone s hs))
  have hnested := relabel_of_isFirst hfirst (nestedName className inners)
  rw [outerName_nestedName hclass hinners] at hnested
  refine ⟨?_, suffix, hfirst, hnested, dollar_notMem_outerName⟩
  rw [hnested, relabel_of_isFirst hfirst, String.append_left_inj]
  by_cases hhead : (shortName className).toList.head? = some '$'
  · rw [if_pos hhead, outerName_of_head hhead]
    constructor
    · intro he
      exact .inl (Decidable.byContradiction fun hne => nestedName_ne hne _ he)
    · rintro (rfl | hno)
      · rfl
      · exact absurd hhead hno
  · rw [if_neg hhead]
    exact ⟨fun _ => .inr hhead, fun _ => rfl⟩

theorem relabel_nestedName_iff_twoDeep :
    (({} : Policy).relabel "com/a/Foo$Bar$1" "X.java" = ({} : Policy).relabel "com/a/Foo" "X.java" ↔
      ["Bar", "1"] = [] ∨ (shortName "com/a/Foo").toList.head? ≠ some '$') ∧
    ∃ suffix, IsFirst ({} : Policy).primary "X.java" suffix ∧
      ({} : Policy).relabel "com/a/Foo$Bar$1" "X.java" =
        (if (shortName "com/a/Foo").toList.head? = some '$' then nestedName (shortName "com/a/Foo") ["Bar", "1"]
          else outerName (shortName "com/a/Foo")) ++ extensionOr suffix "X.java" ∧
      ((shortName "com/a/Foo").toList.head? ≠ some '$' → '$' ∉ (outerName (shortName "com/a/Foo")).toList) := by
  have hinners : ∀ inner ∈ ["Bar", "1"], IsSimple inner := by simp only [List.forall_mem_cons]; decide
  exact relabel_nestedName_iff (by decide : shortName "com/a/Foo" ≠ "") hinners ⟨".java", by decide, by decide⟩

/-- Names that are nested in a name with a `$` in front stay in the label. -/
theorem relabel_leadingDollar :
    shortName "com/$Proxy" ≠ "" ∧ IsSimple "Inner" ∧ (∃ suffix ∈ ({} : Policy).primary, endsWith "X.java" suffix = true) ∧
      ({} : Policy).relabel "com/$Proxy" "X.java" = "$Proxy.java" ∧
      ({} : Policy).relabel (innerName "com/$Proxy" "Inner") "X.java" = "$Proxy$Inner.java" := by
  exact ⟨by decide, by decide, ⟨".java", by decide, by decide⟩, by decide, by decide⟩

end Policy
end SourceLabel
