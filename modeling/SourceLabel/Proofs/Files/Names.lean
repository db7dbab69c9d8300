import SourceLabel.Proofs.Files.Store
import SourceLabel.Proofs.Policy

/-!
# The name at the end of a path

A path that leads to a file ends with the name of that file, and what is before it leads to the directory that
the file lies in. So the file can be replaced under that path, whatever else the path has in it.
-/
namespace SourceLabel.Files

open Text

/-! ## Pieces -/

theorem split_ne_nil (cs : List Char) : split cs ≠ [] := by
  cases cs with
  | nil => exact List.cons_ne_nil _ _
  | cons c cs =>
    unfold split
    split
    · exact List.cons_ne_nil _ _
    · split
      · exact List.cons_ne_nil _ _
      · exact List.cons_ne_nil _ _

theorem split_cons {cs piece : List Char} {rest : List (List Char)} (h : split cs = piece :: rest) (c : Char) :
    split (c :: cs) = if c = '/' then [] :: piece :: rest else (c :: piece) :: rest := by
  rw [split, h]

theorem slash_notMem_of_mem_split {cs piece : List Char} (h : piece ∈ split cs) : '/' ∉ piece := by
  induction cs generalizing piece with
  | nil =>
    obtain rfl := List.mem_singleton.mp h
    exact List.not_mem_nil
  | cons c cs ih =>
    obtain ⟨first, rest, hs⟩ := List.exists_cons_of_ne_nil (split_ne_nil cs)
    rw [hs] at ih
    obtain ⟨hfirst, hrest⟩ := List.forall_mem_cons.mp fun _ hm => ih hm
    rw [split_cons hs] at h
    by_cases hc : c = '/'
    · rw [if_pos hc] at h
      rcases List.mem_cons.mp h with rfl | h
      · exact List.not_mem_nil
      · exact ih h
    · rw [if_neg hc] at h
      rcases List.mem_cons.mp h with rfl | h
      · exact fun hm => (List.mem_cons.mp hm).elim (fun he => hc he.symm) hfirst
      · exact hrest piece h

theorem split_of_notMem {cs : List Char} (h : '/' ∉ cs) : split cs = [cs] := by
  induction cs with
  | nil => rfl
  | cons c cs ih =>
    obtain ⟨hc, hcs⟩ := not_or.mp (fun hm => h (List.mem_cons.mpr hm))
    rw [split, ih hcs]
    exact if_neg (Ne.symm hc)

theorem split_append (front back : List Char) : split (front ++ '/' :: back) = split front ++ split back := by
  induction front with
  | nil =>
    obtain ⟨piece, rest, hs⟩ := List.exists_cons_of_ne_nil (split_ne_nil back)
    rw [List.nil_append, split_cons hs, hs, if_pos rfl]
    rfl
  | cons c front ih =>
    obtain ⟨piece, rest, hs⟩ := List.exists_cons_of_ne_nil (split_ne_nil front)
    rw [hs, List.cons_append] at ih
    rw [List.cons_append, split_cons ih, split_cons hs]
    split
    · rfl
    · rfl

theorem slash_notMem_of_mem_pieces {path piece : String} (h : piece ∈ pieces path) : '/' ∉ piece.toList := by
  obtain ⟨cs, hcs, rfl⟩ := List.mem_map.mp h
  rw [String.toList_ofList]
  exact slash_notMem_of_mem_split hcs

/-- The last piece of a name in a directory is that name. -/
theorem pieces_join {name : String} (h : '/' ∉ name.toList) (directory : String) :
    ∃ front, pieces (join directory name) = front ++ [name] := by
  have hpieces : ∀ front : List Char, ∀ path : String, path.toList = front ++ '/' :: name.toList →
      ∃ front, pieces path = front ++ [name] := by
    intro front path hp
    refine ⟨(split front).map String.ofList, ?_⟩
    rw [pieces, hp, split_append, split_of_notMem h, List.map_append, List.map_singleton, String.ofList_toList]
  unfold join
  split
  · next hslash =>
    obtain ⟨front, hf⟩ := endsWith_iff.mp hslash
    refine hpieces front _ ?_
    rw [String.toList_append, ← hf]
    exact List.append_assoc _ _ _
  · refine hpieces directory.toList _ ?_
    rw [String.toList_append, String.toList_append]
    exact List.append_assoc _ _ _

/-! ## The name at the end of a path -/

/-- The piece is a name, and not one that counts for nothing or leads to the directory above. -/
structure IsName (piece : String) : Prop where
  counts : isBlank piece = false
  leadsOn : piece ≠ ".."

theorem fileName?_of_pieces {path name : String} {front : List String} (hname : IsName name)
    (h : pieces path = front ++ [name]) : fileName? path = some name := by
  have hlast : (names path).reverse = name :: (front.filter (!isBlank ·)).reverse := by
    unfold names
    rw [h, List.filter_append, List.filter_cons_of_pos (by simp [hname.counts]), List.filter_nil, List.reverse_append]
    rfl
  unfold fileName?
  rw [hlast]
  exact if_neg hname.leadsOn

theorem fileName_of_pieces {path name : String} {front : List String} (hname : IsName name)
    (h : pieces path = front ++ [name]) : fileName path = name := by
  unfold fileName
  rw [fileName?_of_pieces hname h]
  rfl

/-! ## Paths that lead to files -/

variable {f f' : Files} {p q : Place} {b : Bytes} {path : String}

/-- All places around this one are directories. -/
def Rooted (f : Files) (p : Place) : Prop :=
  ∀ q, q <:+ p → q ≠ p → f.node? q = some .directory

theorem node?_of_suffix_home (h : p <:+ f.home) : f.node? p = some .directory := by
  unfold node?
  rw [if_pos (List.isSuffixOf_iff_suffix.mpr h)]

theorem base_suffix_home (f : Files) (path : String) : f.base path <:+ f.home := by
  unfold base
  split
  · exact List.nil_suffix
  · exact List.suffix_rfl

theorem rooted_base (f : Files) (path : String) : f.Rooted (f.base path) :=
  fun _ hq _ => node?_of_suffix_home (hq.trans (f.base_suffix_home path))

theorem Rooted.of_directory {directory : Place} (h : f.Rooted directory) (hd : f.node? directory = some .directory)
    (hq : q <:+ directory) : f.node? q = some .directory := by
  by_cases he : q = directory
  · exact he ▸ hd
  · exact h q hq he

theorem Rooted.cons {directory : Place} (h : f.Rooted directory) (hd : f.node? directory = some .directory)
    (name : String) : f.Rooted (name :: directory) := by
  intro q hq hne
  exact h.of_directory hd ((List.suffix_cons_iff.mp hq).resolve_left hne)

theorem Rooted.stepTo {directory : Place} {piece : String} (h : f.Rooted directory)
    (hd : f.node? directory = some .directory) (hs : Files.stepTo directory piece = .ok p) : f.Rooted p := by
  unfold Files.stepTo at hs
  split at hs
  · exact Except.ok.inj hs ▸ h
  · split at hs
    · obtain rfl := Except.ok.inj hs
      exact fun q hq _ => h.of_directory hd (hq.trans (List.tail_suffix _))
    · split at hs
      · exact nomatch hs
      · exact Except.ok.inj hs ▸ h.cons hd piece

theorem Rooted.follow {pieces : List String} (h : f.Rooted p) (hf : f.follow p pieces = .ok q) : f.Rooted q := by
  induction pieces generalizing p with
  | nil => exact Except.ok.inj hf ▸ h
  | cons piece rest ih =>
    obtain ⟨hd, r, hs, hr⟩ := follow_cons_eq_ok.mp hf
    exact ih (h.stepTo hd hs) hr

/-- A piece that leads from a directory to something else is a name, and the place is the one of that name in
the directory. -/
theorem Rooted.isName_of_stepTo {directory : Place} {piece : String} (h : f.Rooted directory)
    (hd : f.node? directory = some .directory) (hs : Files.stepTo directory piece = .ok p)
    (hp : f.node? p ≠ some .directory) :
    IsName piece ∧ ¬ maxName < piece.utf8ByteSize ∧ p = piece :: directory := by
  unfold Files.stepTo at hs
  split at hs
  · exact absurd hd (Except.ok.inj hs ▸ hp)
  · next hblank =>
    split at hs
    · obtain rfl := Except.ok.inj hs
      exact absurd (h.of_directory hd (List.tail_suffix directory)) hp
    · next hdots =>
      split at hs
      · exact nomatch hs
      · next hlong => exact ⟨⟨Bool.eq_false_iff.mpr hblank, hdots⟩, hlong, (Except.ok.inj hs).symm⟩

/-- The path is the path of a directory and then this name. -/
structure EndsIn (f : Files) (path : String) (front : List String) (directory : Place) (name : String) : Prop where
  pieces : pieces path = front ++ [name]
  follow : f.follow (f.base path) front = .ok directory
  directory : f.node? directory = some .directory
  isName : IsName name
  short : ¬ maxName < name.utf8ByteSize

theorem pieces_ne_nil (path : String) : pieces path ≠ [] :=
  fun h => split_ne_nil _ (List.map_eq_nil_iff.mp h)

theorem endsIn_of_openFile (h : f.openFile path = .ok p) :
    ∃ front directory name, f.EndsIn path front directory name ∧ p = name :: directory := by
  obtain ⟨hl, b, hb⟩ := openFile_eq_ok.mp h
  obtain ⟨-, -, -, hf⟩ := locate_eq_ok.mp hl
  obtain ⟨front, name, hpieces⟩ := (List.eq_nil_or_concat' (pieces path)).resolve_left (pieces_ne_nil path)
  rw [hpieces] at hf
  obtain ⟨directory, hfront, hlast⟩ := follow_append_eq_ok.mp hf
  obtain ⟨hd, q, hs, hq⟩ := follow_cons_eq_ok.mp hlast
  obtain rfl : p = q := (Except.ok.inj hq).symm
  have hrooted := (f.rooted_base path).follow hfront
  have hfile : f.node? p ≠ some .directory := by
    rw [hb]
    exact nofun
  obtain ⟨hname, hshort, hp⟩ := hrooted.isName_of_stepTo hd hs hfile
  exact ⟨front, directory, name, ⟨hpieces, hfront, hd, hname, hshort⟩, hp⟩

theorem fileName?_of_openFile (h : f.openFile path = .ok p) :
    fileName? path = some (fileName path) ∧ fileName path ∈ pieces path := by
  obtain ⟨front, directory, name, hends, -⟩ := endsIn_of_openFile h
  have hname := fileName?_of_pieces hends.isName hends.pieces
  have hmem : name ∈ pieces path := by simp [hends.pieces]
  unfold fileName
  rw [hname]
  exact ⟨rfl, hmem⟩

theorem publish_of_openFile (h : f.openFile path = .ok p) (t : Temporary) (b : Bytes) :
    f.publish t b path = .ok ((f.remove t.place).set p (.file b)) := by
  obtain ⟨front, directory, name, hends, rfl⟩ := endsIn_of_openFile h
  obtain ⟨hl, contents, hfile⟩ := openFile_eq_ok.mp h
  obtain ⟨hnul, hempty, hlong, -⟩ := locate_eq_ok.mp hl
  have hblank := hends.isName.counts
  unfold isBlank at hblank
  rw [Bool.or_eq_false_iff, decide_eq_false_iff_not, decide_eq_false_iff_not] at hblank
  have hall : (Files.pieces path).reverse = name :: front.reverse := by
    rw [hends.pieces, List.reverse_append]
    rfl
  have hlast : (name :: front.reverse).dropWhile (· = "") = name :: front.reverse :=
    List.dropWhile_cons_of_neg (by simpa using hblank.1)
  have hdots : ¬ (name = "." ∨ name = "..") := not_or.mpr ⟨hblank.2, hends.isName.leadsOn⟩
  have hnode : f.node? (name :: directory) ≠ some .directory := by
    rw [hfile]
    exact nofun
  unfold publish
  simp only [if_neg hnul, if_neg hempty, if_neg hlong, hall, hlast, List.reverse_reverse, hends.follow, hends.directory,
    if_neg hdots, if_neg hends.short, if_neg (Nat.lt_irrefl _), if_neg hnode, bind, Except.bind, pure, Except.pure]

end SourceLabel.Files
