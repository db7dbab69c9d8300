import SourceLabel.Proofs.Machine.Basic
import SourceLabel.Proofs.Zip.Finding

/-!
# Finding the end record on a machine

The definition looks at every position of the tail, from the front, and keeps the last record of each sort.
The machine goes backwards instead, from the last position at which a record has room, and stops at the first
record whose comment ends where the tail ends. What the machine has still to look at is then what the
definition has seen from the front, and the two agree about it.
-/
namespace SourceLabel.Machine

open Zip EndRecord

/-! ## The machine -/

def readEndFields (tail : Bytes) (pos : Nat) : Checked EndFields := do
  let disk ← field16 tail pos 4
  let directoryDisk ← field16 tail pos 6
  let countHere ← field16 tail pos 8
  let count ← field16 tail pos 10
  let directorySize ← field32 tail pos 12
  let directoryOffset ← field32 tail pos 16
  let commentLength ← field16 tail pos 20
  return ⟨disk, directoryDisk, countHere, count, directorySize, directoryOffset, commentLength⟩

def hasLocator (tail : Bytes) (pos : Nat) : Checked Bool := do
  if locatorLength ≤ pos then
    let sign ← u32At tail (← sub pos locatorLength)
    return sign == some locatorSignature
  else return false

def parseAt (tail : Bytes) (pos start : Nat) : Guarded Error (EndRecord × Nat) := do
  let f ← readEndFields tail pos
  refuse f.isSplit (.unsupportedFeature .splitArchives)
  let isWide ← hasLocator tail pos
  refuse isWide (.unsupportedFeature .zip64)
  refuse f.isZip64 (.unsupportedFeature .zip64)
  let commentStart ← add pos EndFields.length
  let commentStop ← add commentStart f.commentLength.toNat
  let comment := (slice? tail commentStart commentStop).getD []
  let offset ← add start pos
  return (⟨f.count, f.directorySize, f.directoryOffset, comment⟩, offset)

/-- Looks at the positions before `count`, the last one first. -/
def scan (tail : Bytes) (start : Nat) : (count : Nat) → (fallback : Option Nat) →
    Guarded Error (EndRecord × Nat)
  | 0, none => throw (.invalidFormat .noEndRecord)
  | 0, some pos => parseAt tail pos start
  | pos + 1, fallback => do
    let sign ← u32At tail pos
    if sign ≠ some EndFields.signature then scan tail start pos fallback
    else
      let commentLength ← field16 tail pos 20
      let commentStart ← add pos EndFields.length
      let stop ← add commentStart commentLength.toNat
      if stop = tail.length then parseAt tail pos start
      else if stop < tail.length ∧ fallback = none then scan tail start pos (some pos)
      else scan tail start pos fallback

def find (tail : Bytes) (start : Nat) : Guarded Error (EndRecord × Nat) := do
  refuse (tail.length < EndFields.length) (.invalidFormat (.tooShort tail.length))
  let last ← sub tail.length EndFields.length
  scan tail start (last + 1) none

/-! ## Fields that are there -/

variable {tail rest : Bytes} {pos start : Nat} {sign : UInt32} {f : EndFields}

theorem exists_readEnd (h : pos + EndFields.length ≤ tail.length) :
    ∃ sign f rest, EndFields.read? (tail.drop pos) = some (sign, f, rest) := by
  have hlength : 22 ≤ (tail.drop pos).length := by
    rw [List.length_drop]
    exact Nat.le_sub_of_add_le (Nat.add_comm _ _ ▸ h)
  have hsome : (EndFields.read? (tail.drop pos)).isSome := by
    unfold EndFields.read?
    iterate 8
      first
        | refine Bytes.isSome_bind_take32? hlength (by decide) fun _ _ hlength => ?_
        | refine Bytes.isSome_bind_take16? hlength (by decide) fun _ _ hlength => ?_
    rfl
  obtain ⟨⟨sign, f, rest⟩, hread⟩ := Option.isSome_iff_exists.mp hsome
  exact ⟨sign, f, rest, hread⟩

theorem readEndFields_eq (hb : tail.length < lengthBound)
    (h : EndFields.read? (tail.drop pos) = some (sign, f, rest)) :
    readEndFields tail pos = .ok f ∧ Bytes.u32At? tail pos = some sign ∧
      field16 tail pos 20 = .ok f.commentLength ∧ rest = tail.drop (pos + EndFields.length) := by
  have hsign := (EndFields.of_read? h).1
  unfold EndFields.read? at h
  generalize hdrop : tail.drop pos = b at h
  repeat
    first | rw [Bytes.bind_take16?_eq_some] at h | rw [Bytes.bind_take32?_eq_some] at h
    obtain ⟨_, _, rfl, h⟩ := h
  obtain ⟨rfl, hfields⟩ := Prod.mk.inj (Option.some.inj h)
  obtain ⟨rfl, rfl⟩ := Prod.mk.inj hfields
  have field16_eq : ∀ offset n rest, (tail.drop pos).drop offset = Bytes.le16 n ++ rest →
      field16 tail pos offset = .ok n := fun _ _ _ => field16_of_drop hb
  have field32_eq : ∀ offset n rest, (tail.drop pos).drop offset = Bytes.le32 n ++ rest →
      field32 tail pos offset = .ok n := fun _ _ _ => field32_of_drop hb
  rw [hdrop] at field16_eq field32_eq
  refine ⟨?_, hsign, field16_eq 20 _ _ rfl, ?_⟩
  · simp only [readEndFields, field16_eq 4 _ _ rfl, field16_eq 6 _ _ rfl, field16_eq 8 _ _ rfl,
      field16_eq 10 _ _ rfl, field32_eq 12 _ _ rfl, field32_eq 16 _ _ rfl, field16_eq 20 _ _ rfl, ok_bind]
    rfl
  · rw [← List.drop_drop, hdrop]
    rfl

theorem hasLocator_eq (hb : tail.length < lengthBound) (pos : Nat) :
    hasLocator tail pos = .ok (EndRecord.hasLocator tail pos) := by
  unfold hasLocator EndRecord.hasLocator
  by_cases h : locatorLength ≤ pos
  · rw [if_pos h, sub_eq h, ok_bind, u32At_eq hb]
    simp only [h, decide_true, Bool.true_and]
    rfl
  · simp only [h, if_false, decide_false, Bool.false_and]
    rfl

/-- A record whose comment lies within the tail. -/
structure RecordAt (tail : Bytes) (pos : Nat) (f : EndFields) : Prop where
  read : ∃ sign rest, EndFields.read? (tail.drop pos) = some (sign, f, rest)
  stop_le : pos + EndFields.length + f.commentLength.toNat ≤ tail.length

theorem parseAt_eq (hb : tail.length < lengthBound) (hstart : start + tail.length < wordBound)
    (h : RecordAt tail pos f) :
    parseAt tail pos start = answer ((EndRecord.parseAt tail pos).map (·, start + pos)) := by
  obtain ⟨⟨sign, rest, hread⟩, hstop⟩ := h
  have hword := wordBound_eq
  have hbound := lengthBound_eq
  obtain ⟨hfields, -, -, rfl⟩ := readEndFields_eq hb hread
  have hcomment : slice? tail (pos + EndFields.length) (pos + EndFields.length + f.commentLength.toNat) =
      some ((tail.drop (pos + EndFields.length)).take f.commentLength.toNat) := by
    rw [slice?_eq (Nat.le_add_right _ _) hstop, Nat.add_sub_cancel_left]
  simp only [parseAt, EndRecord.parseAt, hfields, hread, lift_bind, hasLocator_eq hb, refuse]
  by_cases hsplit : f.isSplit
  · simp only [hsplit, if_true, answer_error_bind]
    rfl
  by_cases hwide : EndRecord.hasLocator tail pos
  · simp only [hsplit, hwide, Bool.true_or, if_true, Bool.false_eq_true, if_false, answer_ok_bind,
      answer_error_bind]
    rfl
  by_cases hzip64 : f.isZip64
  · simp only [hsplit, hwide, hzip64, Bool.or_true, if_true, Bool.false_eq_true, if_false, answer_ok_bind,
      answer_error_bind]
    rfl
  have hcommentStart : add pos EndFields.length = .ok (pos + EndFields.length) := add_eq (by omega)
  have hcommentStop : add (pos + EndFields.length) f.commentLength.toNat = .ok _ := add_eq (by omega)
  have hoffset : add start pos = .ok (start + pos) := add_eq (by omega)
  simp only [hsplit, hwide, hzip64, Bool.or_self, Bool.false_eq_true, if_false, answer_ok_bind, hcommentStart,
    hcommentStop, hoffset, lift_bind, hcomment, Option.getD_some]
  rfl

/-! ## From the front and from the end -/

/-- What is seen at the positions before `n`. -/
def seen (tail : Bytes) : Nat → Found
  | 0 => {}
  | n + 1 => (seen tail n).see n (tail.length - n) (tail.drop n)

theorem search_seen {n : Nat} (hn : n ≤ tail.length) :
    search (seen tail n) n (tail.length - n) (tail.drop n) = seen tail tail.length := by
  generalize hb : tail.drop n = b
  induction b generalizing n with
  | nil =>
    have hle : tail.length ≤ n := List.drop_eq_nil_iff.mp hb
    rw [search, Nat.le_antisymm hn hle]
  | cons x b ih =>
    have hlt : n < tail.length := by
      refine Nat.lt_of_not_le fun hle => ?_
      rw [List.drop_of_length_le hle] at hb
      exact List.cons_ne_nil _ _ hb.symm
    have hnext : tail.drop (n + 1) = b := by
      rw [← List.drop_drop, hb]
      rfl
    have hsee : (seen tail n).see n (tail.length - n) (x :: b) = seen tail (n + 1) := by rw [seen, hb]
    rw [search, hsee, Nat.sub_sub, ih hlt hnext]

theorem seen_eq (h : EndFields.length ≤ tail.length) :
    seen tail tail.length = seen tail (tail.length - EndFields.length + 1) := by
  have hshort : ∀ k, k < EndFields.length →
      seen tail (tail.length - EndFields.length + 1 + k) = seen tail (tail.length - EndFields.length + 1) := by
    intro k hk
    induction k with
    | zero => rfl
    | succ k ih =>
      rw [← Nat.add_assoc, seen, ← ih (by omega)]
      have hnone : EndFields.read? (tail.drop (tail.length - EndFields.length + 1 + k)) = none := by
        cases hr : EndFields.read? (tail.drop (tail.length - EndFields.length + 1 + k)) with
        | none => rfl
        | some r =>
          have hlength := (EndFields.of_read? hr).2
          rw [List.length_drop] at hlength
          omega
      rw [Found.see, hnone]
      split <;> rfl
  have hfixed : EndFields.length = 22 := rfl
  rw [← hshort 21 (by decide)]
  congr 1
  omega

theorem see_eq {b : Bytes} (h : EndFields.read? b = some (sign, f, rest)) (found : Found) (pos left : Nat) :
    found.see pos left b =
      if sign = EndFields.signature then
        if EndFields.length + f.commentLength.toNat = left then { found with exact := some pos }
        else if EndFields.length + f.commentLength.toNat < left then { found with inside := some pos }
        else found
      else found := by
  simp only [Found.see, (EndFields.of_read? h).1, h, Option.some.injEq]

/-- The record that was decided on, or the failure to find one. -/
def located (tail : Bytes) (start : Nat) : Option Nat → Except Error (EndRecord × Nat)
  | none => .error (.invalidFormat .noEndRecord)
  | some pos => (EndRecord.parseAt tail pos).map (·, start + pos)

/-- The positions that the machine has still to look at are those that the definition has seen. What it has
passed over holds no record that ends exactly, and the last one that lies within the tail, if there is one,
is the fallback. -/
theorem scan_eq (hb : tail.length < lengthBound) (hstart : start + tail.length < wordBound) {n : Nat}
    (hn : n + EndFields.length ≤ tail.length + 1) (fallback : Option Nat)
    (hfallback : ∀ pos, fallback = some pos → ∃ f, RecordAt tail pos f) :
    scan tail start n fallback =
      answer (located tail start ((seen tail n).exact <|> fallback <|> (seen tail n).inside)) := by
  have hword := wordBound_eq
  have hbound := lengthBound_eq
  induction n generalizing fallback with
  | zero =>
    cases fallback with
    | none => rfl
    | some pos =>
      obtain ⟨f, hf⟩ := hfallback pos rfl
      exact parseAt_eq hb hstart hf
  | succ n ih =>
    have ih := fun fallback => ih (by omega) fallback
    have hroom : n + EndFields.length ≤ tail.length := by omega
    obtain ⟨sign, f, rest, hread⟩ := exists_readEnd hroom
    obtain ⟨-, hsign, hcomment, -⟩ := readEndFields_eq hb hread
    have hcommentStart : add n EndFields.length = .ok (n + EndFields.length) := add_eq (by omega)
    have hsmall := f.commentLength.toNat_lt
    have hstop : add (n + EndFields.length) f.commentLength.toNat = .ok _ := add_eq (by omega)
    rw [scan, u32At_eq hb, hsign, lift_bind, seen, see_eq hread]
    by_cases hs : sign = EndFields.signature
    · have hskip : ¬ (some sign ≠ some EndFields.signature) := fun h => h (congrArg some hs)
      rw [if_neg hskip, if_pos hs, hcomment, lift_bind, hcommentStart, lift_bind, hstop, lift_bind]
      have hat : n + EndFields.length + f.commentLength.toNat ≤ tail.length → RecordAt tail n f :=
        fun hle => ⟨⟨sign, rest, hread⟩, hle⟩
      -- The definition compares with what is left from here on, the machine with the end of the tail.
      by_cases hexact : n + EndFields.length + f.commentLength.toNat = tail.length
      · have hleft : EndFields.length + f.commentLength.toNat = tail.length - n := by omega
        rw [if_pos hexact, if_pos hleft, parseAt_eq hb hstart (hat (by omega))]
        rfl
      have hleft : ¬ EndFields.length + f.commentLength.toNat = tail.length - n := by omega
      rw [if_neg hexact, if_neg hleft]
      by_cases hinside : n + EndFields.length + f.commentLength.toNat < tail.length
      · have hleft : EndFields.length + f.commentLength.toNat < tail.length - n := by omega
        rw [if_pos hleft]
        cases fallback with
        | none =>
          have hnext : ∀ pos, some n = some pos → ∃ f, RecordAt tail pos f := by
            intro pos hpos
            obtain rfl := Option.some.inj hpos
            exact ⟨f, hat (by omega)⟩
          rw [if_pos ⟨hinside, rfl⟩, ih (some n) hnext]
          rfl
        | some pos =>
          rw [if_neg (fun h => nomatch h.2), ih (some pos) hfallback]
          rfl
      · have hleft : ¬ EndFields.length + f.commentLength.toNat < tail.length - n := by omega
        rw [if_neg hleft, if_neg (fun h => hinside h.1), ih fallback hfallback]
    · have hskip : some sign ≠ some EndFields.signature := fun h => hs (Option.some.inj h)
      rw [if_pos hskip, if_neg hs, ih fallback hfallback]

theorem find_eq_located (h : EndFields.length ≤ tail.length) (start : Nat) :
    EndRecord.find tail start = located tail start (position? tail) := by
  simp only [EndRecord.find, Nat.not_lt.mpr h, if_false]
  cases position? tail with
  | none => rfl
  | some pos => cases hparse : EndRecord.parseAt tail pos <;> simp only [located, hparse] <;> rfl

/-- The machine finds the record that the definition finds, or fails as it does. -/
theorem find_eq (hb : tail.length < lengthBound) (hstart : start + tail.length < wordBound) :
    find tail start = answer (EndRecord.find tail start) := by
  by_cases hshort : tail.length < EndFields.length
  · simp only [find, EndRecord.find, refuse, hshort, if_true]
    rfl
  have hlong : EndFields.length ≤ tail.length := Nat.not_lt.mp hshort
  have hseen : search {} 0 tail.length tail = seen tail (tail.length - EndFields.length + 1) :=
    (search_seen (Nat.zero_le _)).trans (seen_eq hlong)
  have hnone : ∀ pos, none = some pos → ∃ f, RecordAt tail pos f :=
    fun _ h => absurd h (Option.some_ne_none _).symm
  have hscan := scan_eq (n := tail.length - EndFields.length + 1) hb hstart (by omega) none hnone
  simp only [find, refuse, hshort, if_false, answer_ok_bind, sub_eq hlong, lift_bind, hscan,
    find_eq_located hlong, position?, hseen]
  rfl

end SourceLabel.Machine
