import SourceLabel.Proofs.Files.Names
import SourceLabel.Proofs.Policy.Table

/-!
# Copies with the same extension

A copy of a file is a temporary file beside it with the same extension. How a name ends is told by its extension,
and so the copy is called as the file is as far as its name ends in a kind of file. It is not if the name is
nothing but such an ending: a dot that comes first does not count, and so the copy has no extension at all.
-/
namespace SourceLabel.Files

open Text

variable {f f' : Files} {p : Place} {path directory suffix name tag ending : String} {tags : List String}
  {t : Temporary}

/-! ## Temporary files -/

theorem locate_createTemporary (h : f.createTemporary directory suffix tags = .ok (t, f')) :
    f.locate t.path = .ok t.place ∧ ∃ tag ∈ tags, t.path = f.temporaryPath directory suffix tag := by
  induction tags with
  | nil => exact nomatch h
  | cons tag tags ih =>
    unfold createTemporary at h
    split at h
    · exact nomatch h
    · next place hl =>
      split at h
      · obtain ⟨ht, tag', hmem, hpath⟩ := ih h
        exact ⟨ht, tag', List.mem_cons_of_mem _ hmem, hpath⟩
      · obtain ⟨rfl, -⟩ := Prod.mk.inj (Except.ok.inj h)
        exact ⟨hl, tag, List.mem_cons_self, rfl⟩

theorem openFile_temporary (h : f.createTemporary directory suffix tags = .ok (t, f')) (b : Bytes) :
    (f.set t.place (.file b)).openFile t.path = .ok t.place ∧ (f.set t.place (.file b)).contents t.place = b := by
  have hn := (createTemporary_eq_ok h).1
  have hfree : f.node? t.place ≠ some .directory := by
    rw [hn]
    exact nofun
  have hset : (f.set t.place (.file b)).node? t.place = some (.file b) := by
    rw [node?_set, if_pos ⟨rfl, not_home_of_node? hfree⟩]
  have hl := (reaches_set hfree (.file b)).locate (locate_createTemporary h).1
  exact ⟨openFile_eq_ok.mpr ⟨hl, b, hset⟩, contents_eq_of_node? hset⟩

/-- Where a temporary file can be made, one can still be made when some files are gone. -/
theorem createTemporary_of_reaches {g : Files} (h : f.createTemporary directory suffix tags = .ok (t, f'))
    (hr : Reaches f g) (hfree : ∀ p, f.node? p = none → g.node? p = none) :
    ∃ t' g', g.createTemporary directory suffix tags = .ok (t', g') := by
  have hpath : g.temporaryPath directory suffix = f.temporaryPath directory suffix := by
    funext tag
    unfold temporaryPath absolute
    rw [hr.home]
  induction tags with
  | nil => exact nomatch h
  | cons tag tags ih =>
    unfold createTemporary at h ⊢
    split at h
    · exact nomatch h
    · next place hl =>
      rw [← hpath] at hl h
      rw [hpath, ← hpath, hr.locate hl]
      dsimp only
      split
      · split at h
        · exact ih h
        · next hsome hnone =>
          rw [Option.not_isSome_iff_eq_none] at hnone
          rw [hfree place hnone] at hsome
          exact nomatch hsome
      · exact ⟨_, _, rfl⟩

/-- There is room for a copy of the file beside it, and then for one more temporary file. -/
def HasRoom (f : Files) (tags : List String) (path : String) : Prop :=
  ∃ copy f₁, f.createTemporary (parent path) (extension path) tags = .ok (copy, f₁) ∧
    ∃ t f₂, f₁.createTemporary (parent path) "" tags = .ok (t, f₂)

theorem HasRoom.direct (h : f.HasRoom tags path) : ∃ t f', f.createTemporary (parent path) "" tags = .ok (t, f') := by
  obtain ⟨copy, f₁, hcopy, t, f₂, hc⟩ := h
  obtain ⟨-, rfl⟩ := createTemporary_eq_ok hcopy
  refine createTemporary_of_reaches hc (reaches_unset f _ _) fun q hq => ?_
  rw [node?_set] at hq
  split at hq
  · exact nomatch hq
  · exact hq

/-- Whatever the copy holds, there is room beside it. -/
theorem HasRoom.besideCopy (h : f.HasRoom tags path) :
    ∃ copy f₁, f.createTemporary (parent path) (extension path) tags = .ok (copy, f₁) ∧
      ∀ b, ∃ t f', (f.set copy.place (.file b)).createTemporary (parent path) "" tags = .ok (t, f') := by
  obtain ⟨copy, f₁, hcopy, t, f₂, hc⟩ := h
  refine ⟨copy, f₁, hcopy, fun b => ?_⟩
  obtain ⟨hn, rfl⟩ := createTemporary_eq_ok hcopy
  have hfree : f.node? copy.place ≠ some .directory := by
    rw [hn]
    exact nofun
  refine createTemporary_of_reaches hc ((reaches_unset f _ _).trans (reaches_set hfree (.file b))) fun q hq => ?_
  rw [node?_set] at hq ⊢
  split at hq
  · exact nomatch hq
  · next hne => rw [if_neg hne, hq]

/-! ## Extensions -/

theorem extension_eq (h : fileName? path = some name) :
    extension path = if '.' ∈ name.toList.drop 1 then extensionOr "" name else "" := by
  unfold extension extensionOr
  rw [h]
  dsimp only [Option.getD_some]
  split
  · next hdot => rw [if_pos (List.mem_of_mem_drop hdot)]
  · rfl

theorem isExtension_extension (h : fileName? path = some name) (hne : extension path ≠ "") :
    IsExtension (extension path) ∧ endsWith name (extension path) = true := by
  rw [extension_eq h] at hne ⊢
  split at hne
  · next hdot =>
    rw [if_pos hdot]
    obtain ⟨stem, rest, hname, hfree, hext⟩ := extensionOr_split (List.mem_of_mem_drop hdot) ""
    rw [hext]
    refine ⟨⟨rest.toList, String.toList_append, hfree⟩, ?_⟩
    rw [hname, String.append_assoc]
    exact endsWith_append _ _
  · exact absurd rfl hne

theorem endsWith_iff_extension (hs : IsExtension ending) (h : fileName? path = some name) (hne : name ≠ ending) :
    endsWith name ending = true ↔ extension path = ending := by
  constructor
  · intro hends
    have hext := hs.extensionOr_eq hends ""
    obtain ⟨cs, hcs, -⟩ := hs
    obtain ⟨front, hf⟩ := endsWith_iff.mp hends
    have hdot : '.' ∈ name.toList.drop 1 := by
      cases front with
      | nil => exact absurd (String.toList_inj.mp hf.symm) hne
      | cons c front =>
        rw [← hf, hcs]
        simp
    rw [extension_eq h, if_pos hdot, hext]
  · intro he
    have hnil : extension path ≠ "" := by
      obtain ⟨cs, hcs, -⟩ := hs
      rw [he]
      rintro rfl
      exact nomatch hcs
    exact he ▸ (isExtension_extension h hnil).2

theorem endsWith_temporary_iff (hs : IsExtension ending) (hdash : '-' ∉ ending.toList) (htag : '.' ∉ tag.toList)
    (h : fileName? path = some name) :
    endsWith (temporaryStem ++ tag ++ extension path) ending = true ↔ extension path = ending := by
  constructor
  · intro hends
    by_cases hne : extension path = ""
    · -- the only dot is the first character, and what follows it has a dash
      exfalso
      have hstem : '.' ∉ "sourcefile-fixer-".toList := by decide +kernel
      have hfree : ∀ c ∈ "sourcefile-fixer-".toList ++ tag.toList, decide (c = '.') = false := by
        intro c hc
        exact decide_eq_false fun he : c = '.' => (List.mem_append.mp (he ▸ hc)).elim hstem htag
      have hlist : (temporaryStem ++ tag ++ extension path).toList =
          '.' :: ("sourcefile-fixer-".toList ++ tag.toList) := by
        rw [hne, String.append_empty, String.toList_append]
        rfl
      have hlast := hs.afterLast hends
      rw [hlist, afterLast_cons (by decide) hfree] at hlast
      have hmem : '-' ∈ "sourcefile-fixer-".toList := by decide +kernel
      exact hdash (hlast ▸ List.mem_cons_of_mem _ (List.mem_append_left _ hmem))
    · have hext := isExtension_extension h hne
      exact (hs.unique hext.1 hends (endsWith_append _ _)).symm
  · rintro rfl
    exact endsWith_append _ _

/-! ## The copy of a file -/

/-- A tag is plain if it has letters and digits only. -/
def IsPlain (tag : String) : Prop :=
  ∀ c ∈ tag.toList, c.isAlphanum = true

instance (tag : String) : Decidable (IsPlain tag) :=
  inferInstanceAs (Decidable (∀ c ∈ tag.toList, c.isAlphanum = true))

theorem IsPlain.notMem (h : IsPlain tag) {c : Char} (hc : c.isAlphanum = false) : c ∉ tag.toList :=
  fun hm => Bool.false_ne_true (hc.symm.trans (h c hm))

theorem isPlain_temporaryTags : ∀ tag ∈ temporaryTags, IsPlain tag := by
  intro tag h c hc
  obtain ⟨n, -, rfl⟩ := List.mem_map.mp h
  rw [String.toList_ofList] at hc
  have hdigit := Nat.isDigit_of_mem_toDigits (by decide) (by decide) (List.mem_of_mem_tail hc)
  exact Bool.or_eq_true_iff.mpr (.inr hdigit)

theorem isName_temporary (tag suffix : String) : IsName (temporaryStem ++ tag ++ suffix) := by
  have hstart : (temporaryStem ++ tag ++ suffix).toList.take 2 = ['.', 's'] := by
    rw [String.toList_append, String.toList_append]
    rfl
  have hne : ∀ piece : String, piece.toList.take 2 ≠ ['.', 's'] → temporaryStem ++ tag ++ suffix ≠ piece :=
    fun piece h he => h (he ▸ hstart)
  refine ⟨Bool.or_eq_false_iff.mpr ⟨decide_eq_false (hne _ ?_), decide_eq_false (hne _ ?_)⟩, hne _ ?_⟩
  · decide
  · decide
  · decide

/-- A temporary file is called by the tag that its path stands for. -/
theorem fileName_createTemporary (h : f.createTemporary directory suffix tags = .ok (t, f'))
    (htags : ∀ tag ∈ tags, IsPlain tag) (hsuffix : '/' ∉ suffix.toList) :
    ∃ tag, IsPlain tag ∧ fileName t.path = temporaryStem ++ tag ++ suffix := by
  obtain ⟨-, tag, hmem, hpath⟩ := locate_createTemporary h
  have hstem : '/' ∉ temporaryStem.toList := by decide
  have hslash : '/' ∉ (temporaryStem ++ tag ++ suffix).toList := by
    rw [String.toList_append, String.toList_append, List.mem_append, List.mem_append, not_or, not_or]
    exact ⟨⟨hstem, (htags tag hmem).notMem (by decide)⟩, hsuffix⟩
  obtain ⟨front, hpieces⟩ := pieces_join hslash (f.absolute directory)
  rw [← temporaryPath, ← hpath] at hpieces
  exact ⟨tag, htags tag hmem, fileName_of_pieces (isName_temporary tag suffix) hpieces⟩

/-- How a copy of the file with the same extension is called: it ends as the extension says. -/
theorem endsWith_copy_iff (h : f.createTemporary directory (extension path) tags = .ok (t, f'))
    (htags : ∀ tag ∈ tags, IsPlain tag) (hopen : f.openFile path = .ok p) (hs : IsExtension ending)
    (hdash : '-' ∉ ending.toList) : endsWith (fileName t.path) ending = true ↔ extension path = ending := by
  obtain ⟨hname, hmem⟩ := fileName?_of_openFile hopen
  have hslash : '/' ∉ (extension path).toList := by
    by_cases hne : extension path = ""
    · rw [hne]
      exact List.not_mem_nil
    · have hsuffix := endsWith_iff.mp (isExtension_extension hname hne).2
      exact fun hc => slash_notMem_of_mem_pieces hmem (hsuffix.mem hc)
  obtain ⟨tag, htag, hcopy⟩ := fileName_createTemporary h htags hslash
  rw [hcopy]
  exact endsWith_temporary_iff hs hdash (htag.notMem (by decide)) hname

/-- A file is called as its copy as far as its name ends in this, unless this is its whole name. -/
theorem endsWith_copy_eq (h : f.createTemporary directory (extension path) tags = .ok (t, f'))
    (htags : ∀ tag ∈ tags, IsPlain tag) (hopen : f.openFile path = .ok p) (hs : IsExtension ending)
    (hdash : '-' ∉ ending.toList) (hne : fileName path ≠ ending) :
    endsWith (fileName t.path) ending = endsWith (fileName path) ending := by
  have hends := endsWith_iff_extension hs (fileName?_of_openFile hopen).1 hne
  exact Bool.eq_iff_iff.mpr ((endsWith_copy_iff h htags hopen hs hdash).trans hends.symm)

theorem extension_of_isExtension (hs : IsExtension name) (h : fileName? path = some name) : extension path = "" := by
  obtain ⟨cs, hcs, hfree⟩ := hs
  rw [extension_eq h, hcs]
  exact if_neg hfree

/-- The copy of a file whose name is nothing but an extension does not end in one. -/
theorem endsWith_copy_of_isExtension (h : f.createTemporary directory (extension path) tags = .ok (t, f'))
    (htags : ∀ tag ∈ tags, IsPlain tag) (hopen : f.openFile path = .ok p) (hs : IsExtension ending)
    (hdash : '-' ∉ ending.toList) (hname : IsExtension (fileName path)) :
    endsWith (fileName t.path) ending = false := by
  refine Bool.eq_false_iff.mpr fun he => ?_
  have hext := (endsWith_copy_iff h htags hopen hs hdash).mp he
  rw [extension_of_isExtension hname (fileName?_of_openFile hopen).1] at hext
  obtain ⟨cs, hcs, -⟩ := hs
  rw [← hext] at hcs
  exact nomatch hcs

end SourceLabel.Files
