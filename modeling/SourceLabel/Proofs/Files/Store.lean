import SourceLabel.Files.Store

/-!
# What changes in a store of files

A node that is set or removed changes nothing elsewhere. Whether a path can be followed depends on
directories only, so files come and go without a path to another file being lost. What is published under a
path is found under that path.
-/
namespace SourceLabel.Files

variable {f f' : Files} {p q : Place} {n : Node} {b : Bytes} {path : String}

/-! ## Nodes -/

theorem lookup_map_replace (nodes : List (Place × Node)) (p q : Place) (n : Node) :
    (nodes.map fun entry => if entry.1 = p then (p, n) else entry).lookup q =
      if q = p ∧ (nodes.lookup p).isSome then some n else nodes.lookup q := by
  induction nodes with
  | nil => simp
  | cons entry nodes ih =>
    obtain ⟨r, m⟩ := entry
    rw [List.map_cons]
    by_cases hr : r = p
    · subst hr
      by_cases hq : q = r
      · subst hq
        simp
      · have hb : (q == r) = false := beq_false_of_ne hq
        simp only [if_true, List.lookup_cons, hb, ih, hq, false_and, if_false]
    · have hb : (p == r) = false := beq_false_of_ne fun h => hr h.symm
      simp only [hr, if_false, List.lookup_cons, hb, ih]
      by_cases hq : q = r
      · subst hq
        simp [hr]
      · have hb' : (q == r) = false := beq_false_of_ne hq
        simp only [hb']

theorem lookup_set (f : Files) (p q : Place) (n : Node) :
    (f.set p n).nodes.lookup q = if q = p then some n else f.nodes.lookup q := by
  unfold set
  split
  · next h => simp only [lookup_map_replace, h, and_true]
  · by_cases hq : q = p
    · subst hq
      simp
    · have hb : (q == p) = false := beq_false_of_ne hq
      simp only [List.lookup_cons, hb, hq, if_false]

@[simp] theorem home_set (f : Files) (p : Place) (n : Node) : (f.set p n).home = f.home := by
  unfold set
  split <;> rfl

theorem node?_set (f : Files) (p q : Place) (n : Node) :
    (f.set p n).node? q = if q = p ∧ q.isSuffixOf f.home = false then some n else f.node? q := by
  unfold node?
  rw [home_set, lookup_set]
  by_cases hs : q.isSuffixOf f.home
  · simp [hs]
  · simp [hs]

theorem lookup_remove (f : Files) (p q : Place) :
    (f.remove p).nodes.lookup q = if q = p then none else f.nodes.lookup q := by
  unfold remove
  induction f.nodes with
  | nil => simp
  | cons entry nodes ih =>
    obtain ⟨r, m⟩ := entry
    rw [List.filter_cons]
    by_cases hr : r = p
    · subst hr
      simp only [ne_eq, not_true_eq_false, decide_false, Bool.false_eq_true, if_false]
      rw [ih]
      by_cases hq : q = r
      · rw [if_pos hq, if_pos hq]
      · have hb : (q == r) = false := beq_false_of_ne hq
        rw [if_neg hq, if_neg hq, List.lookup_cons, hb]
    · simp only [ne_eq, hr, not_false_eq_true, decide_true, if_true, List.lookup_cons, ih]
      by_cases hq : q = r
      · subst hq
        simp [hr]
      · have hb : (q == r) = false := beq_false_of_ne hq
        rw [hb]

theorem node?_remove (f : Files) (p q : Place) :
    (f.remove p).node? q = if q = p ∧ q.isSuffixOf f.home = false then none else f.node? q := by
  have hh : (f.remove p).home = f.home := rfl
  unfold node?
  rw [hh, lookup_remove]
  by_cases hs : q.isSuffixOf f.home
  · simp [hs]
  · simp [hs]

theorem lookup_of_node? (h : f.node? p = none) : f.nodes.lookup p = none := by
  unfold node? at h
  split at h
  · exact nomatch h
  · exact h

/-- To replace a node keeps its place, so it does not matter for what is removed. -/
theorem filter_map_replace (nodes : List (Place × Node)) (p q : Place) (n : Node) :
    (nodes.map fun entry => if entry.1 = p then (p, n) else entry).filter (fun entry => entry.1 ≠ q) =
      (nodes.filter fun entry => entry.1 ≠ q).map fun entry => if entry.1 = p then (p, n) else entry := by
  have hplace : ∀ entry : Place × Node, (if entry.1 = p then (p, n) else entry).1 = entry.1 := by
    intro entry
    split
    · next h => exact h.symm
    · rfl
  rw [List.filter_map]
  congr 2
  funext entry
  simp only [Function.comp, hplace]

@[simp] theorem remove_set_self (f : Files) (p : Place) (n : Node) : (f.set p n).remove p = f.remove p := by
  unfold set remove
  split
  · have hid : ∀ entry ∈ f.nodes.filter fun entry => entry.1 ≠ p,
        (if entry.1 = p then (p, n) else entry) = entry := by
      intro entry he
      rw [if_neg (by simpa using (List.mem_filter.mp he).2)]
    rw [filter_map_replace, List.map_congr_left hid, List.map_id']
  · rw [List.filter_cons_of_neg (by simp)]

theorem ne_of_node? (h : f.node? p = none) : ∀ entry ∈ f.nodes, entry.1 ≠ p := by
  rintro entry hm rfl
  have hs := List.lookup_eq_none_iff.mp (lookup_of_node? h) _ hm
  simp at hs

theorem remove_of_node? (h : f.node? p = none) : f.remove p = f := by
  unfold remove
  rw [List.filter_eq_self.mpr]
  intro entry hm
  simpa using ne_of_node? h entry hm

theorem set_set_of_node? (h : f.node? p = none) (m n : Node) : (f.set p m).set p n = f.set p n := by
  have hl := lookup_of_node? h
  have hset : ∀ n, f.set p n = { f with nodes := (p, n) :: f.nodes } := by
    intro n
    unfold set
    rw [hl, if_neg (by simp)]
  have hid : ∀ entry ∈ f.nodes, (if entry.1 = p then (p, n) else entry) = entry := by
    intro entry hm
    rw [if_neg (ne_of_node? h entry hm)]
  rw [hset m, hset n]
  unfold set
  rw [if_pos (by simp), List.map_cons, if_pos rfl, List.map_congr_left hid, List.map_id']

theorem remove_set_of_ne (h : q ≠ p) (f : Files) (n : Node) : (f.set p n).remove q = (f.remove q).set p n := by
  have hl : (f.remove q).nodes.lookup p = f.nodes.lookup p := by
    rw [lookup_remove, if_neg (Ne.symm h)]
  unfold set
  rw [hl]
  split
  · unfold remove
    rw [filter_map_replace]
  · unfold remove
    rw [List.filter_cons_of_pos (by simpa using Ne.symm h)]

theorem not_home_of_node? (h : f.node? p ≠ some .directory) : p.isSuffixOf f.home = false := by
  apply Bool.eq_false_iff.mpr
  intro hs
  unfold node? at h
  rw [if_pos hs] at h
  exact h rfl

theorem contents_eq_of_node? (h : f.node? p = some (.file b)) : f.contents p = b := by
  unfold contents
  rw [h]

/-! ## Paths -/

/-- Every directory is still there. -/
structure Reaches (f f' : Files) : Prop where
  home : f'.home = f.home
  directory : ∀ p, f.node? p = some .directory → f'.node? p = some .directory

theorem Reaches.trans {f'' : Files} (h : Reaches f f') (h' : Reaches f' f'') : Reaches f f'' :=
  ⟨h'.home.trans h.home, fun p hp => h'.directory p (h.directory p hp)⟩

theorem reaches_set (h : f.node? p ≠ some .directory) (n : Node) : Reaches f (f.set p n) := by
  constructor
  · exact home_set f p n
  · intro q hq
    rw [node?_set]
    by_cases hc : q = p ∧ q.isSuffixOf f.home = false
    · exact absurd (hc.1 ▸ hq) h
    · rw [if_neg hc]
      exact hq

theorem reaches_remove (h : f.node? p ≠ some .directory) : Reaches f (f.remove p) := by
  constructor
  · rfl
  · intro q hq
    have hp : ¬ (q = p ∧ q.isSuffixOf f.home = false) := fun hp => h (hp.1 ▸ hq)
    rw [node?_remove, if_neg hp]
    exact hq

theorem reaches_unset (f : Files) (p : Place) (b : Bytes) : Reaches (f.set p (.file b)) f := by
  constructor
  · exact (home_set f p _).symm
  · intro q hq
    rw [node?_set] at hq
    split at hq
    · exact nomatch hq
    · exact hq

/-- Where one piece leads from a directory. -/
def stepTo (p : Place) (piece : String) : Except IoFault Place :=
  if isBlank piece then .ok p
  else if piece = ".." then .ok p.tail
  else if maxName < piece.utf8ByteSize then .error .nameTooLong
  else .ok (piece :: p)

theorem follow_cons_eq_ok {piece : String} {rest : List String} :
    f.follow p (piece :: rest) = .ok q ↔
      f.node? p = some .directory ∧ ∃ r, stepTo p piece = .ok r ∧ f.follow r rest = .ok q := by
  rw [follow]
  unfold stepTo
  rcases f.node? p with _ | _ | contents
  · simp
  · by_cases hb : isBlank piece = true
    · simp [if_pos hb]
    · by_cases hp : piece = ".."
      · simp [if_neg hb, if_pos hp]
      · by_cases hl : maxName < piece.utf8ByteSize
        · simp [if_neg hb, if_neg hp, if_pos hl]
        · simp [if_neg hb, if_neg hp, if_neg hl]
  · simp

theorem Reaches.follow {pieces : List String} (h : Reaches f f') (hf : f.follow p pieces = .ok q) :
    f'.follow p pieces = .ok q := by
  induction pieces generalizing p with
  | nil => exact hf
  | cons piece rest ih =>
    obtain ⟨hd, r, hs, hr⟩ := follow_cons_eq_ok.mp hf
    exact follow_cons_eq_ok.mpr ⟨h.directory p hd, r, hs, ih hr⟩

/-- Following pieces is following the first of them, and then the others from there. -/
theorem follow_append_eq_ok {xs ys : List String} {r : Place} :
    f.follow p (xs ++ ys) = .ok r ↔ ∃ q, f.follow p xs = .ok q ∧ f.follow q ys = .ok r := by
  induction xs generalizing p with
  | nil =>
    constructor
    · exact fun h => ⟨p, rfl, h⟩
    · rintro ⟨q, hq, h⟩
      exact Except.ok.inj hq ▸ h
  | cons piece rest ih =>
    rw [List.cons_append, follow_cons_eq_ok]
    constructor
    · rintro ⟨hd, r', hs, h⟩
      obtain ⟨q, hq, hr⟩ := ih.mp h
      exact ⟨q, follow_cons_eq_ok.mpr ⟨hd, r', hs, hq⟩, hr⟩
    · rintro ⟨q, hq, hr⟩
      obtain ⟨hd, r', hs, h⟩ := follow_cons_eq_ok.mp hq
      exact ⟨hd, r', hs, ih.mpr ⟨q, h, hr⟩⟩

theorem locate_eq_ok :
    f.locate path = .ok p ↔ '\x00' ∉ path.toList ∧ path ≠ "" ∧ ¬ maxPath < path.utf8ByteSize ∧
      f.follow (f.base path) (pieces path) = .ok p := by
  unfold locate
  split
  · next h => simp [h]
  · next h₁ =>
    split
    · next h => simp [h]
    · next h₂ =>
      split
      · next h => simp [h]
      · next h₃ => simp only [h₁, h₂, h₃, not_false_eq_true, ne_eq, true_and]

theorem Reaches.locate (h : Reaches f f') (hf : f.locate path = .ok p) : f'.locate path = .ok p := by
  have hb : f'.base path = f.base path := by
    unfold base
    rw [h.home]
  obtain ⟨hnul, hempty, hlong, hf⟩ := locate_eq_ok.mp hf
  exact locate_eq_ok.mpr ⟨hnul, hempty, hlong, hb ▸ h.follow hf⟩

theorem openFile_eq_ok :
    f.openFile path = .ok p ↔ f.locate path = .ok p ∧ ∃ b, f.node? p = some (.file b) := by
  unfold openFile
  cases hl : f.locate path with
  | error e => simp [bind, Except.bind]
  | ok r =>
    simp only [bind, Except.bind, Except.ok.injEq]
    constructor
    · intro h
      split at h
      · exact nomatch h
      · exact nomatch h
      · next b hn =>
        obtain rfl := Except.ok.inj h
        exact ⟨rfl, b, hn⟩
    · rintro ⟨rfl, b, hn⟩
      rw [hn]
      rfl

/-! ## Temporary files -/

theorem createTemporary_eq_ok {directory suffix : String} {tags : List String} {t : Temporary}
    (h : f.createTemporary directory suffix tags = .ok (t, f')) :
    f.node? t.place = none ∧ f' = f.set t.place (.file []) := by
  induction tags with
  | nil => exact nomatch h
  | cons tag tags ih =>
    unfold createTemporary at h
    split at h
    · exact nomatch h
    · next place _ =>
      split at h
      · exact ih h
      · next hn =>
        obtain ⟨rfl, rfl⟩ := Prod.mk.inj (Except.ok.inj h)
        exact ⟨Option.not_isSome_iff_eq_none.mp hn, rfl⟩

theorem node?_createTemporary {directory suffix : String} {tags : List String} {t : Temporary}
    (h : f.createTemporary directory suffix tags = .ok (t, f')) : f'.node? t.place ≠ some .directory := by
  obtain ⟨hn, rfl⟩ := createTemporary_eq_ok h
  rw [node?_set]
  split
  · exact nofun
  · rw [hn]
    exact nofun

theorem openFile_set (ho : f.openFile path = .ok p) (hq : f.node? q = none) (c : Bytes) :
    (f.set q (.file c)).openFile path = .ok p ∧ (f.set q (.file c)).contents p = f.contents p := by
  obtain ⟨hl, b, hb⟩ := openFile_eq_ok.mp ho
  have hr : Reaches f (f.set q (.file c)) := reaches_set (by rw [hq]; exact nofun) _
  have hp : (f.set q (.file c)).node? p = some (.file b) := by
    have hne : p ≠ q := by
      rintro rfl
      exact nomatch hb.symm.trans hq
    rw [node?_set, if_neg fun hc => hne hc.1, hb]
  refine ⟨openFile_eq_ok.mpr ⟨hr.locate hl, b, hp⟩, ?_⟩
  rw [contents_eq_of_node? hp, contents_eq_of_node? hb]

/-- So it is when a temporary file has been made. -/
theorem openFile_createTemporary {directory suffix : String} {tags : List String} {t : Temporary}
    (ho : f.openFile path = .ok p) (h : f.createTemporary directory suffix tags = .ok (t, f')) :
    f'.openFile path = .ok p ∧ f'.contents p = f.contents p := by
  obtain ⟨hn, rfl⟩ := createTemporary_eq_ok h
  exact openFile_set ho hn []

/-- To publish is to set a node where the path leads, in the place of no directory. -/
theorem publish_eq_ok {t : Temporary} (h : f.publish t b path = .ok f') :
    ∃ p, f.locate path = .ok p ∧ f.node? p ≠ some .directory ∧
      f' = (f.remove t.place).set p (.file b) := by
  unfold publish at h
  simp only [bind, Except.bind, throw, throwThe, MonadExceptOf.throw, pure, Except.pure] at h
  split at h
  · exact nomatch h
  next h₁ =>
  split at h
  · exact nomatch h
  next h₂ =>
  split at h
  · exact nomatch h
  next h₃ =>
  split at h
  · exact nomatch h
  next name rest hlast =>
  split at h
  · exact nomatch h
  next directory hf =>
  split at h
  · exact nomatch h
  · exact nomatch h
  next hd =>
  split at h
  · exact nomatch h
  next hdots =>
  split at h
  · exact nomatch h
  next hlong =>
  split at h
  · exact nomatch h
  next hslash =>
  split at h
  · exact nomatch h
  next hn =>
  refine ⟨name :: directory, ?_, hn, (Except.ok.inj h).symm⟩
  have hall : (pieces path).reverse = name :: rest := by
    rw [← hlast]
    exact ((List.dropWhile_suffix _).eq_of_length_le (Nat.not_lt.mp hslash)).symm
  have hblank : name ≠ "" := by
    intro he
    have hl := congrArg List.length hlast
    rw [hall, List.dropWhile_cons_of_pos (by simpa using he), List.length_cons] at hl
    have hle := (List.dropWhile_suffix (fun x => decide (x = "")) (l := rest)).length_le
    omega
  have hp : pieces path = rest.reverse ++ [name] := by
    rw [← List.reverse_reverse (pieces path), hall, List.reverse_cons]
  have hs : stepTo directory name = .ok (name :: directory) := by
    have hdots := not_or.mp hdots
    have hb : ¬ isBlank name = true := by simp [isBlank, hblank, hdots.1]
    unfold stepTo
    rw [if_neg hb, if_neg hdots.2, if_neg hlong]
  refine locate_eq_ok.mpr ⟨h₁, h₂, h₃, ?_⟩
  rw [hp]
  exact follow_append_eq_ok.mpr ⟨directory, hf, follow_cons_eq_ok.mpr ⟨hd, _, hs, rfl⟩⟩

/-- The file that the path names has got contents, and all else is as it was. -/
def Replaced (f f' : Files) (path : String) : Prop :=
  ∃ p b, f.locate path = .ok p ∧ f.node? p ≠ some .directory ∧ f' = f.set p (.file b)

theorem replaced_of_set {t : Place} {c : Bytes} (ht : f.node? t = none) (hl : (f.set t (.file c)).locate path = .ok p)
    (hn : (f.set t (.file c)).node? p ≠ some .directory) (b : Bytes) : Replaced f (f.set p (.file b)) path := by
  refine ⟨p, b, (reaches_unset f t c).locate hl, fun hd => hn ?_, rfl⟩
  have hne : p ≠ t := by
    rintro rfl
    rw [ht] at hd
    exact nomatch hd
  rw [node?_set, if_neg fun hc => hne hc.1, hd]

/-- What is published in the place of a temporary file replaces the file that the path names, and nothing
is left of the temporary file. -/
theorem replaced_of_publish {directory suffix : String} {tags : List String} {t : Temporary} {f₁ f₂ : Files}
    (hc : f.createTemporary directory suffix tags = .ok (t, f₁)) (h : f₁.publish t b path = .ok f₂) :
    Replaced f f₂ path := by
  obtain ⟨hn, rfl⟩ := createTemporary_eq_ok hc
  obtain ⟨p, hl, hp, rfl⟩ := publish_eq_ok h
  rw [remove_set_self, remove_of_node? hn]
  exact replaced_of_set hn hl hp b

/-- To replace a file beside a temporary one, and then to remove the temporary one, replaces the file. If the
path is the one of the temporary file, nothing has been there and nothing is left. -/
theorem Replaced.remove {t : Place} {c : Bytes} (ht : f.node? t = none)
    (h : Replaced (f.set t (.file c)) f' path) :
    Replaced f (f'.remove t) path ∨ f'.remove t = f ∧ ∀ p, f.openFile path ≠ .ok p := by
  obtain ⟨p, b, hl, hn, rfl⟩ := h
  by_cases hp : p = t
  · -- the output has taken the place of the temporary file, and is removed in its stead
    subst hp
    refine .inr ⟨by rw [remove_set_self, remove_set_self, remove_of_node? ht], fun q hq => ?_⟩
    obtain ⟨hlq, b', hb⟩ := openFile_eq_ok.mp hq
    have hr : Reaches f (f.set p (.file c)) := reaches_set (by rw [ht]; exact nofun) _
    obtain rfl : q = p := Except.ok.inj ((hr.locate hlq).symm.trans hl)
    rw [ht] at hb
    exact nomatch hb
  · refine .inl ?_
    rw [remove_set_of_ne (Ne.symm hp), remove_set_self, remove_of_node? ht]
    exact replaced_of_set ht hl hn b

/-- What was published is found. -/
theorem openFile_publish {t : Temporary} (ht : f.node? t.place ≠ some .directory)
    (h : f.publish t b path = .ok f') : ∃ p, f'.openFile path = .ok p ∧ f'.contents p = b := by
  obtain ⟨p, hl, hn, rfl⟩ := publish_eq_ok h
  have hn' : (f.remove t.place).node? p ≠ some .directory := by
    rw [node?_remove]
    split
    · exact nofun
    · exact hn
  have hset : ((f.remove t.place).set p (.file b)).node? p = some (.file b) := by
    rw [node?_set, if_pos ⟨rfl, not_home_of_node? hn'⟩]
  have hr := (reaches_remove ht).trans (reaches_set hn' (.file b))
  exact ⟨p, openFile_eq_ok.mpr ⟨hr.locate hl, b, hset⟩, contents_eq_of_node? hset⟩

end SourceLabel.Files
