import SourceLabel.Proofs.Text.Breaks

/-!
# Where decoding fails

Surrogates are looked at only when all bytes are units. Then the decoder names the first one that stands alone. In
bytes that break off it names none, even if one stands alone before that place.
-/
namespace SourceLabel.Text.Modified

variable {b : Bytes} {us : List Nat} {n : Nat}

/-! ## Units without a partner -/

/-- Among units, `u` has no partner: it is a high surrogate before anything but a low one, or a low one behind
anything but a high one. -/
def Unpaired (front : List Nat) (u : Nat) (back : List Nat) : Prop :=
  isHigh u = true ∧ (∀ next ∈ back.head?, isLow next = false) ∨
    isLow u = true ∧ ∀ last ∈ front.getLast?, isHigh last = false

theorem Unpaired.cons {front back : List Nat} {u x : Nat} (h : Unpaired front u back) (hx : isHigh x = false) :
    Unpaired (x :: front) u back := by
  refine h.imp_right fun ⟨hlow, hlast⟩ => ⟨hlow, ?_⟩
  cases front with
  | nil =>
    rintro last hmem
    obtain rfl := Option.some.inj hmem
    exact hx
  | cons y front => rwa [List.getLast?_cons_cons]

theorem Unpaired.cons_cons {front back : List Nat} {u x y : Nat} (h : Unpaired (y :: front) u back) :
    Unpaired (x :: y :: front) u back :=
  h.imp_right fun ⟨hlow, hlast⟩ => ⟨hlow, by rwa [List.getLast?_cons_cons]⟩

theorem Join.high_foldl {us : List (Nat × Nat)} {p : Nat × Nat} (h : (us.foldl step {}).high = some p) :
    us.getLast? = some p ∧ isHigh p.2 = true := by
  rcases List.eq_nil_or_concat us with rfl | ⟨us, q, rfl⟩
  · exact nomatch h
  · have hfirst {glyphs : List Glyph} (h : (first glyphs q.1 q.2).high = some p) : q = p ∧ isHigh p.2 = true := by
      unfold first at h
      split at h
      · next hhigh =>
        obtain rfl := Option.some.inj h
        exact ⟨rfl, hhigh⟩
      · split at h
        · exact nomatch h
        · exact nomatch h
    rw [List.concat_eq_append] at h ⊢
    rw [List.foldl_append, List.foldl_cons, List.foldl_nil] at h
    rw [List.getLast?_concat, Option.some.injEq]
    unfold step at h
    dsimp only at h
    split at h
    · exact hfirst h
    · split at h
      · exact nomatch h
      · exact hfirst h

theorem isLow_of_isHigh {u : Nat} (h : isHigh u = true) : isLow u = false := by
  have hbounds := isHigh_iff.mp h
  refine Bool.eq_false_iff.mpr fun hlow => ?_
  have hlow := isLow_iff.mp hlow
  omega

theorem assemble_unpaired {front back : List (Nat × Nat)} {start u : Nat}
    (h : Unpaired (front.map Prod.snd) u (back.map Prod.snd)) :
    assemble (front ++ (start, u) :: back) = assemble front ++ .lone start :: assemble back := by
  rcases h with ⟨hhigh, hnext⟩ | ⟨hlow, hlast⟩
  · have hsingle : assemble [(start, u)] = [.lone start] := by
      simp [assemble, Join.step, Join.first, Join.finish, hhigh]
    have hback : assemble ((start, u) :: back) = .lone start :: assemble back := by
      rw [← List.singleton_append, assemble_append, hsingle, List.singleton_append]
      rintro p rest rfl
      exact hnext p.2 rfl
    rw [assemble_append, hback]
    rintro p _ hp
    exact (List.cons.inj hp).1 ▸ isLow_of_isHigh hhigh
  · have hhigh : isHigh u = false := Bool.eq_false_iff.mpr fun h => by simp [isLow_of_isHigh h] at hlow
    have hnone : (front.foldl Join.step {}).high = none := by
      by_contra hne
      obtain ⟨p, hp⟩ := Option.ne_none_iff_exists'.mp hne
      obtain ⟨hgetLast, hp⟩ := Join.high_foldl hp
      have hfalse := hlast p.2 (by rw [List.getLast?_map, hgetLast]; rfl)
      exact Bool.false_ne_true (hfalse.symm.trans hp)
    generalize hj : front.foldl Join.step {} = j at hnone
    obtain ⟨high, glyphs⟩ := j
    obtain rfl : high = none := hnone
    have hstep : Join.step ⟨none, glyphs⟩ (start, u) = ⟨none, .lone start :: glyphs⟩ := by
      simp only [Join.step, Join.first, hhigh, hlow, Bool.false_eq_true, if_false, if_true]
    have hfront : assemble front = glyphs.reverse := by
      rw [assemble, hj]
      rfl
    rw [hfront, assemble, List.foldl_append, hj, List.foldl_cons, hstep, Join.finish_foldl, List.reverse_cons,
      List.append_assoc]
    rfl

/-- The first units are one that is left alone, or those of a character. -/
theorem assemble_cons_cases (start u : Nat) (us : List (Nat × Nat)) :
    (Unpaired [] u (us.map Prod.snd) ∧ assemble ((start, u) :: us) = .lone start :: assemble us) ∨
      (isHigh u = false ∧ ∃ c, assemble ((start, u) :: us) = .char c :: assemble us) ∨
      ∃ p rest c, us = p :: rest ∧ isLow p.2 = true ∧ assemble ((start, u) :: us) = .char c :: assemble rest := by
  have hlone (h : Unpaired [] u (us.map Prod.snd)) : assemble ((start, u) :: us) = .lone start :: assemble us :=
    @assemble_unpaired [] us start u h
  cases hhigh : isHigh u with
  | false =>
    cases hlow : isLow u with
    | true =>
      have hu : Unpaired [] u (us.map Prod.snd) := .inr ⟨hlow, nofun⟩
      exact .inl ⟨hu, hlone hu⟩
    | false => exact .inr (.inl ⟨rfl, _, assemble_append_cons [] us start hhigh hlow⟩)
  | true =>
    cases us with
    | nil =>
      have hu : Unpaired [] u [] := .inl ⟨hhigh, nofun⟩
      exact .inl ⟨hu, hlone hu⟩
    | cons p rest =>
      cases hlow : isLow p.2 with
      | true =>
        have hunits : [(start, u), p].map Prod.snd = [Char.ofNat _].flatMap units :=
          (units_ofPair hhigh hlow).symm.trans (List.flatMap_singleton units _).symm
        exact .inr (.inr ⟨p, rest, _, rfl, hlow, assemble_units_append hunits rest⟩)
      | false =>
        have hu : Unpaired [] u ((p :: rest).map Prod.snd) := by
          refine .inl ⟨hhigh, ?_⟩
          rintro next hnext
          exact Option.some.inj hnext ▸ hlow
        exact .inl ⟨hu, hlone hu⟩

/-- The first unit that is left alone has no partner. -/
theorem exists_unpaired (us : List (Nat × Nat)) {cs : List Char} {rest : List Glyph}
    (h : assemble us = cs.map Glyph.char ++ .lone n :: rest) :
    ∃ front u back, us = front ++ (n, u) :: back ∧ Unpaired (front.map Prod.snd) u (back.map Prod.snd) := by
  generalize hlength : us.length = length
  induction length using Nat.strongRecOn generalizing us cs with
  | ind length ih =>
    subst hlength
    cases us with
    | nil => cases cs <;> exact nomatch h
    | cons p us =>
      obtain ⟨start, u⟩ := p
      have hlater : ∀ c tail, assemble ((start, u) :: us) = .char c :: assemble tail →
          ∃ cs : List Char, assemble tail = cs.map Glyph.char ++ .lone n :: rest := by
        intro c tail htail
        rw [h] at htail
        cases cs with
        | nil => exact nomatch (List.cons.inj htail).1
        | cons c' cs => exact ⟨cs, (List.cons.inj htail).2.symm⟩
      rcases assemble_cons_cases start u us with ⟨hu, hlone⟩ | ⟨hhigh, c, hchar⟩ | ⟨p, rest', c, rfl, hlow, hchar⟩
      · rw [h] at hlone
        cases cs with
        | nil =>
          obtain rfl := Glyph.lone.inj (List.cons.inj hlone).1
          exact ⟨[], u, us, rfl, hu⟩
        | cons c cs => exact nomatch (List.cons.inj hlone).1
      · obtain ⟨cs', hcs'⟩ := hlater c us hchar
        obtain ⟨front, v, back, rfl, hv⟩ := ih us.length (Nat.lt_succ_self _) us hcs' rfl
        exact ⟨(start, u) :: front, v, back, rfl, hv.cons hhigh⟩
      · obtain ⟨cs', hcs'⟩ := hlater c rest' hchar
        obtain ⟨front, v, back, rfl, hv⟩ := ih _ (by simp only [List.length_cons]; omega) rest' hcs' rfl
        have hp : isHigh p.2 = false := Bool.eq_false_iff.mpr fun h => by simp [isLow_of_isHigh h] at hlow
        exact ⟨(start, u) :: p :: front, v, back, rfl, (hv.cons hp).cons_cons⟩

/-! ## Surrogates that stand alone -/

/-- A surrogate without a partner begins at a place: the bytes before it spell units, and neither the unit behind
a high one is low nor the one before a low one high. -/
inductive StandsAlone : Bytes → Nat → Prop
  | high {us : List Nat} {u : Nat} {front form back : Bytes} : Spells us front → Form u form → isHigh u = true →
      (∀ next bytes, Form next bytes → bytes <+: back → isLow next = false) →
      StandsAlone (front ++ (form ++ back)) front.length
  | low {us : List Nat} {u : Nat} {front form back : Bytes} : Spells us front → Form u form → isLow u = true →
      (∀ last ∈ us.getLast?, isHigh last = false) → StandsAlone (front ++ (form ++ back)) front.length

theorem Form.scan_append {u : Nat} {form : Bytes} (h : Form u form) (back : Bytes) :
    Modified.scan (form ++ back) = .unit 0 u :: (Modified.scan back).map (Item.moved form.length) := by
  have hspells : Spells [u] form := by simpa using Spells.cons h .nil
  have hz : ({} : Scan) = ⟨0, .none, []⟩ := rfl
  have hform : Modified.scan form = [.unit 0 u] := by
    rw [Modified.scan, hz, h.scan]
    rfl
  rw [hspells.scan_append, hform]
  rfl

/-- The scan finds the unit first of which the bytes begin with a form. -/
theorem head_scan_iff {u : Nat} :
    (∃ start items, scan b = .unit start u :: items) ↔ ∃ form, Form u form ∧ form <+: b := by
  constructor
  · rintro ⟨start, items, hscan⟩
    have hcut := cut_scan b
    rw [hscan] at hcut
    cases hcut with
    | unit hget hunit _ =>
      obtain ⟨form, hform, hdrop⟩ := form_of_unitAt hget hunit
      exact ⟨form, hform, _, hdrop.symm⟩
  · rintro ⟨form, hform, rest, rfl⟩
    exact ⟨0, _, hform.scan_append rest⟩

theorem Item.eq_unit_of_moved {item : Item} {o start u : Nat} (h : item.moved o = .unit start u) :
    ∃ start', item = .unit start' u := by
  cases item with
  | unit start' u' => exact ⟨start', by rw [(Item.unit.inj h).2]⟩
  | defect start' cause => exact nomatch h

theorem Spells.parted {vs : List Nat} {u : Nat} (h : Spells (us ++ u :: vs) b) :
    ∃ front form back, b = front ++ (form ++ back) ∧ Spells us front ∧ Form u form ∧ Spells vs back := by
  induction us generalizing b with
  | nil =>
    cases h with
    | cons hform hrest => exact ⟨[], _, _, rfl, .nil, hform, hrest⟩
  | cons x us ih =>
    cases h with
    | cons hfirst hrest =>
      obtain ⟨front, form, back, rfl, hfront, hform, hback⟩ := ih hrest
      exact ⟨_ ++ front, form, back, (List.append_assoc ..).symm, .cons hfirst hfront, hform, hback⟩

/-- Where the bytes are parted, so are the units that they are cut into. -/
theorem units_parted {ps : List (Nat × Nat)} {u : Nat} {front form back : Bytes}
    (hscan : scan (front ++ (form ++ back)) = ps.map Item.ofUnit) (hfront : Spells us front) (hform : Form u form) :
    ∃ before after, ps = before ++ (front.length, u) :: after ∧ before.map Prod.snd = us ∧
      ∀ next ∈ (after.map Prod.snd).head?, ∃ bytes, Form next bytes ∧ bytes <+: back := by
  obtain ⟨qs, rfl, hqs⟩ := hfront.scan
  rw [hfront.scan_append, hqs, hform.scan_append] at hscan
  obtain ⟨before, rest, rfl, hbefore, hrest⟩ := List.map_eq_append_iff.mp hscan.symm
  obtain ⟨p, after, rfl, hp, hafter⟩ := List.map_eq_cons_iff.mp hrest
  have hunits := congrArg (List.map Item.lossyUnit) hbefore
  rw [lossyUnits_ofUnit, lossyUnits_ofUnit] at hunits
  obtain ⟨hstart, hu⟩ := Item.unit.inj hp
  refine ⟨before, after, ?_, by rw [hunits], ?_⟩
  · obtain rfl : p = (front.length, u) := Prod.ext (hstart.trans (Nat.zero_add _)) hu
    rfl
  · rintro next hnext
    cases after with
    | nil => exact nomatch hnext
    | cons q after =>
      obtain rfl := Option.some.inj hnext
      obtain ⟨item, items, hitems, hitem, -⟩ := List.map_eq_cons_iff.mp hafter.symm
      obtain ⟨start, rfl⟩ := Item.eq_unit_of_moved hitem
      obtain ⟨item, items, hitems, hitem, -⟩ := List.map_eq_cons_iff.mp hitems
      obtain ⟨start, rfl⟩ := Item.eq_unit_of_moved hitem
      exact head_scan_iff.mp ⟨start, items, hitems⟩

/-- If all bytes are units, the surrogates that stand alone are the units without a partner. -/
theorem standsAlone_iff {ps : List (Nat × Nat)} (hscan : scan b = ps.map Item.ofUnit) :
    StandsAlone b n ↔
      ∃ front u back, ps = front ++ (n, u) :: back ∧ Unpaired (front.map Prod.snd) u (back.map Prod.snd) := by
  constructor
  · intro h
    cases h with
    | high hfront hform hhigh hnext =>
      obtain ⟨before, after, rfl, rfl, hafter⟩ := units_parted hscan hfront hform
      refine ⟨before, _, after, rfl, .inl ⟨hhigh, fun next hmem => ?_⟩⟩
      obtain ⟨bytes, hbytes, hback⟩ := hafter next hmem
      exact hnext next bytes hbytes hback
    | low hfront hform hlow hlast =>
      obtain ⟨before, after, rfl, rfl, -⟩ := units_parted hscan hfront hform
      exact ⟨before, _, after, rfl, .inr ⟨hlow, hlast⟩⟩
  · rintro ⟨front, u, back, rfl, hu⟩
    have hspells : Spells ((front ++ (n, u) :: back).map Prod.snd) b := (hscan ▸ cut_scan b).spells
    rw [List.map_append, List.map_cons] at hspells
    obtain ⟨x, form, y, rfl, hx, hform, hy⟩ := hspells.parted
    obtain ⟨before, after, hparted, hbefore, -⟩ := units_parted hscan hx hform
    obtain ⟨-, hrest⟩ := List.append_inj hparted (by simpa using (congrArg List.length hbefore).symm)
    obtain rfl : n = x.length := (Prod.mk.inj (List.cons.inj hrest).1).1
    rcases hu with ⟨hhigh, hnext⟩ | ⟨hlow, hlast⟩
    · refine .high hx hform hhigh fun next bytes hbytes hprefix => hnext next ?_
      obtain ⟨start, items, hitems⟩ := head_scan_iff.mpr ⟨bytes, hbytes, hprefix⟩
      obtain ⟨qs, hqs, hy⟩ := hy.scan
      rw [hitems] at hy
      obtain ⟨q, qs, rfl, hq, -⟩ := List.map_eq_cons_iff.mp hy.symm
      rw [← hqs]
      exact congrArg some (Item.unit.inj hq).2
    · exact .low hx hform hlow hlast

theorem Cut.places {ps : List (Nat × Nat)} {i : Nat} (h : Cut b i (ps.map Item.ofUnit)) :
    (ps.map Prod.fst).Pairwise (· < ·) ∧ ∀ p ∈ ps, i ≤ p.1 := by
  induction ps generalizing i with
  | nil => exact ⟨.nil, nofun⟩
  | cons p ps ih =>
    obtain ⟨start, u⟩ := p
    cases h with
    | unit _ hunit hrest =>
      have hn := unitAt_length hunit
      obtain ⟨hpairwise, hle⟩ := ih hrest
      have hlater : ∀ q ∈ ps, start < q.1 := fun q hq => by
        have := hle q hq
        omega
      refine ⟨List.pairwise_cons.mpr ⟨fun place hplace => ?_, hpairwise⟩, fun q hq => ?_⟩
      · obtain ⟨q, hq, rfl⟩ := List.mem_map.mp hplace
        exact hlater q hq
      · rcases List.mem_cons.mp hq with rfl | hq
        · exact Nat.le_refl _
        · exact Nat.le_of_lt (hlater q hq)

theorem Joins.lone_mem {ps : List (Nat × Nat)} {k : Nat} {glyphs : List Glyph} (h : Joins ps k glyphs)
    (hlone : .lone n ∈ glyphs) : n ∈ ps.map Prod.fst := by
  induction h with
  | done _ => exact nomatch hlone
  | @glyph k start u _ g _ hget hglyph _ ih =>
    rcases List.mem_cons.mp hlone with rfl | hlone
    · rw [start_of_lone hglyph]
      exact List.mem_map.mpr ⟨(start, u), List.mem_of_getElem? hget, rfl⟩
    · exact ih hlone

theorem eq_or_mem_of_strictChars {m : Nat} {front back : List Glyph}
    (h : strictChars (front ++ .lone m :: back) = .error ⟨n⟩) : n = m ∨ .lone n ∈ front := by
  induction front with
  | nil =>
    obtain rfl := Defect.mk.inj (Except.error.inj h)
    exact .inl rfl
  | cons g front ih =>
    cases g with
    | char c =>
      rw [List.cons_append, strictChars_char, Result.map_eq_error] at h
      exact (ih h).imp_right (List.mem_cons_of_mem _)
    | lone start =>
      obtain rfl := Defect.mk.inj (Except.error.inj h)
      exact .inr List.mem_cons_self

theorem strictChars_assemble_eq_error_iff {ps : List (Nat × Nat)} (hscan : scan b = ps.map Item.ofUnit) :
    strictChars (assemble ps) = .error ⟨n⟩ ↔ IsLeast {m | StandsAlone b m} n := by
  have hfirst {n : Nat} (h : strictChars (assemble ps) = .error ⟨n⟩) : IsLeast {m | StandsAlone b m} n := by
    obtain ⟨cs, rest, hglyphs⟩ := strictChars_eq_error_iff.mp h
    refine ⟨(standsAlone_iff hscan).mpr (exists_unpaired ps hglyphs), fun m hm => ?_⟩
    obtain ⟨front, u, back, rfl, hu⟩ := (standsAlone_iff hscan).mp hm
    rw [assemble_unpaired hu] at h
    rcases eq_or_mem_of_strictChars h with rfl | hmem
    · exact Nat.le_refl _
    · have hplaces := (hscan ▸ cut_scan b : Cut b 0 (List.map Item.ofUnit _)).places.1
      rw [List.map_append, List.map_cons, List.pairwise_append] at hplaces
      exact Nat.le_of_lt (hplaces.2.2 n ((joins_assemble front).lone_mem hmem) m List.mem_cons_self)
  refine ⟨hfirst, fun h => ?_⟩
  obtain ⟨front, u, back, rfl, hu⟩ := (standsAlone_iff hscan).mp h.1
  cases hchars : strictChars (assemble (front ++ (n, u) :: back)) with
  | ok cs =>
    have hmem : .lone n ∈ assemble (front ++ (n, u) :: back) := by
      rw [assemble_unpaired hu]
      exact List.mem_append_right _ List.mem_cons_self
    rw [char_of_strictChars_go hchars] at hmem
    obtain ⟨c, -, hc⟩ := List.mem_map.mp hmem
    exact nomatch hc
  | error d =>
    obtain ⟨m⟩ := d
    rw [(hfirst hchars).unique h]

/-! ## What is reported -/

theorem Spells.concat {u : Nat} {form : Bytes} (h : Spells us b) (hform : Form u form) :
    Spells (us ++ [u]) (b ++ form) := by
  induction h with
  | nil => simpa using Spells.cons hform .nil
  | cons hfirst _ ih =>
    rw [List.append_assoc]
    exact .cons hfirst ih

theorem StandsAlone.lt_of_breaksOff {m : Nat} (h : StandsAlone b m) (hb : BreaksOff b n) : m < n := by
  obtain ⟨us, u, front, form, back, rfl, rfl, hfront, hform⟩ : ∃ us u front form back,
      b = front ++ (form ++ back) ∧ m = front.length ∧ Spells us front ∧ Form u form := by
    cases h with
    | high hfront hform _ _ => exact ⟨_, _, _, _, _, rfl, rfl, hfront, hform⟩
    | low hfront hform _ _ => exact ⟨_, _, _, _, _, rfl, rfl, hfront, hform⟩
  have hlength : 0 < form.length := by
    obtain ⟨c, rest, rfl, -⟩ := hform.head
    exact Nat.zero_lt_succ _
  have hbegins : Begins ((front ++ (form ++ back)).take (front.length + form.length)) := by
    rw [← List.append_assoc, ← List.length_append, List.take_left]
    exact ⟨us ++ [u], [], by simpa using hfront.concat hform⟩
  have hle := hb.le_of_begins (by simp only [List.length_append]; omega) hbegins
  omega

/-- A strict decoder names the place where the bytes break off, else the first surrogate that stands alone. -/
theorem decode_eq_error_iff_place :
    decode b = .error ⟨n⟩ ↔ BreaksOff b n ∨ (∀ m, ¬ BreaksOff b m) ∧ IsLeast {m | StandsAlone b m} n := by
  unfold decode
  rw [Result.bind_eq_error, strictUnits_scan_eq_error_iff]
  refine or_congr_right ?_
  constructor
  · rintro ⟨ps, hps, h⟩
    rw [Result.bind_eq_error] at h
    rcases h with h | ⟨_, _, h⟩
    · refine ⟨fun m hm => ?_, (strictChars_assemble_eq_error_iff (strictUnits_eq_ok_iff.mp hps)).mp h⟩
      exact nomatch hps.symm.trans (strictUnits_scan_eq_error_iff.mpr hm)
    · exact nomatch h
  · rintro ⟨hnone, h⟩
    rcases strictUnits_scan b with ⟨ps, hps⟩ | ⟨m, -, hm⟩
    · have hchars := (strictChars_assemble_eq_error_iff (strictUnits_eq_ok_iff.mp hps)).mpr h
      exact ⟨ps, hps, Result.bind_eq_error.mpr (.inl hchars)⟩
    · exact absurd hm (hnone m)

/-- The place that is reported is that of the first defect, except in bytes that break off behind a surrogate that
stands alone: of the two the later one is reported. -/
theorem decode_reports (b : Bytes) (n : Nat) :
    (decode b = .error ⟨n⟩ ↔ BreaksOff b n ∨ (∀ m, ¬ BreaksOff b m) ∧ IsLeast {m | StandsAlone b m} n) ∧
      (decode b = .error ⟨n⟩ →
        (IsLeast {m | BreaksOff b m ∨ StandsAlone b m} n ↔ ¬ (BreaksOff b n ∧ ∃ m, StandsAlone b m))) := by
  refine ⟨decode_eq_error_iff_place, fun h => ?_⟩
  rcases decode_eq_error_iff_place.mp h with hbreaks | ⟨hnone, hleast⟩
  · constructor
    · rintro hleast ⟨-, m, hm⟩
      exact absurd (hm.lt_of_breaksOff hbreaks) (Nat.not_lt.mpr (hleast.2 (.inr hm)))
    · intro hnot
      refine ⟨.inl hbreaks, ?_⟩
      rintro m (hm | hm)
      · exact Nat.le_of_eq (hbreaks.unique hm)
      · exact absurd ⟨hbreaks, m, hm⟩ hnot
  · refine iff_of_true ⟨.inr hleast.1, ?_⟩ fun h => hnone n h.1
    rintro m (hm | hm)
    · exact absurd hm (hnone m)
    · exact hleast.2 hm

/-- A letter, and a high surrogate at the end. -/
theorem decode_reports_surrogate :
    decode [0x41, 0xED, 0xA0, 0x80] = .error ⟨1⟩ ∧
      IsLeast {m | BreaksOff [0x41, 0xED, 0xA0, 0x80] m ∨ StandsAlone [0x41, 0xED, 0xA0, 0x80] m} 1 := by
  have herror : decode [0x41, 0xED, 0xA0, 0x80] = .error ⟨1⟩ := by decide
  refine ⟨herror, ((decode_reports _ 1).2 herror).mpr fun h => ?_⟩
  have hunits : strictUnits (scan [0x41, 0xED, 0xA0, 0x80]) = .ok [(0, 0x41), (1, 0xD800)] := by decide
  exact nomatch hunits.symm.trans (strictUnits_scan_eq_error_iff.mpr h.1)

/-- Behind a high surrogate that stands alone, a zero is reported. -/
theorem surrogate_passed_over :
    decode [0xED, 0xA0, 0x80, 0] = .error ⟨3⟩ ∧ StandsAlone [0xED, 0xA0, 0x80, 0] 0 ∧
      ¬ IsLeast {m | BreaksOff [0xED, 0xA0, 0x80, 0] m ∨ StandsAlone [0xED, 0xA0, 0x80, 0] m} 3 := by
  have halone : StandsAlone [0xED, 0xA0, 0x80, 0] 0 := by
    have hform : Form 0xD800 [0xED, 0xA0, 0x80] := form_encodeUnit (by decide)
    refine @StandsAlone.high _ _ _ _ [0] .nil hform (by decide) fun next bytes hform hprefix => ?_
    obtain ⟨start, items, hscan⟩ := head_scan_iff.mpr ⟨bytes, hform, hprefix⟩
    exact nomatch (show scan [0] = [.defect 0 0] by decide).symm.trans hscan
  refine ⟨by decide, halone, fun hleast => ?_⟩
  exact absurd (hleast.2 (.inr halone)) (by decide)

end SourceLabel.Text.Modified
