import SourceLabel.Proofs.Deflate.Cutting

/-!
# Coding and decoding

A coded stream is decoded to the data it was made from, if at least one byte more than that is asked for.
Then decoding never halts early, so it does not matter how the data is fetched.
-/
namespace SourceLabel.Deflate

namespace Inflate

theorem allow_of_lt {limit : Nat} {out : Array UInt8} (h : out.size < limit) (s : Source) (p : Portion) :
    allow limit s p out = s := by
  rw [allow, if_neg (Nat.not_le.mpr h)]

/-! ## The block with fixed codes -/

theorem size_le_copyBack (distance length : Nat) (out : Array UInt8) :
    out.size ≤ (Token.copyBack distance length out).size := by
  induction length generalizing out with
  | zero => exact Nat.le_refl _
  | succ length ih =>
    rw [Token.copyBack]
    split
    · exact Nat.le_refl _
    · next b _ =>
      have hp := ih (out.push b)
      rw [Array.size_push] at hp
      omega

theorem size_le_expand (out : Array UInt8) (token : Token) : out.size ≤ (token.expand out).size := by
  cases token with
  | literal b =>
    rw [Token.expand, Array.size_push]
    omega
  | copy length distance => exact size_le_copyBack distance length out

theorem size_le_foldl_expand (out : Array UInt8) (tokens : List Token) :
    out.size ≤ (tokens.foldl Token.expand out).size := by
  induction tokens generalizing out with
  | nil => exact Nat.le_refl _
  | cons token tokens ih => exact Nat.le_trans (size_le_expand out token) (ih _)

theorem tokens_flatMap_bits {limit fuel : Nat} {list : List Token} (hfuel : list.length < fuel)
    {s : Source} {rest : List Bool}
    (hs : s.toList = list.flatMap Token.bits ++ (codeOf fixedLiteralCodes endOfBlock ++ rest))
    (p : Portion) {out : Array UInt8} (hsound : Token.Sound out list)
    (hlimit : (list.foldl Token.expand out).size < limit) :
    ∃ s' p', tokens (treeOfLengths fixedLiteralLengths) (treeOfLengths fixedDistanceLengths) limit fuel
      s p out = .ok (s', p', list.foldl Token.expand out) ∧ s'.toList = rest := by
  induction list generalizing fuel s p out with
  | nil =>
    cases fuel with
    | zero => exact absurd hfuel (Nat.not_lt_zero _)
    | succ fuel =>
      rw [List.flatMap_nil, List.nil_append] at hs
      obtain ⟨s', hn, ht⟩ := nextToken_endOfBlock hs
      exact ⟨s', p, by simp only [tokens, hn, List.foldl_nil], ht⟩
  | cons token list ih =>
    cases fuel with
    | zero => exact absurd hfuel (Nat.not_lt_zero _)
    | succ fuel =>
      obtain ⟨hc, hr, hrest⟩ := hsound
      rw [List.flatMap_cons, List.append_assoc] at hs
      obtain ⟨s₁, hn, h₁⟩ := nextToken_bits hc hs
      have hafter : (token.expand out).size < limit :=
        Nat.lt_of_le_of_lt (size_le_foldl_expand _ list) hlimit
      have hbefore : out.size < limit := Nat.lt_of_le_of_lt (size_le_expand out token) hafter
      obtain ⟨s₂, p₂, hl, h₂⟩ := ih (Nat.lt_of_succ_lt_succ hfuel) h₁
        ((p.read s₁.taken out.size).turn s₁.taken ((token.expand out).size - 1)) hrest hlimit
      refine ⟨s₂, p₂, ?_, h₂⟩
      simp only [tokens, hn, Nat.not_le.mpr hbefore, Nat.not_lt.mpr (Nat.le_of_lt hafter), hr, Bool.not_true,
        Bool.false_eq_true, if_false, allow_of_lt hafter, hl, List.foldl_cons]

theorem blocks_fixedBlock {limit fuel : Nat} {list : List Token} (hfuel : list.length ≤ fuel)
    {s : Source} {rest : List Bool} (hs : s.toList = fixedBlock list ++ rest) (p : Portion)
    (hsound : Token.Sound #[] list) (hlimit : (list.foldl Token.expand #[]).size < limit) :
    blocks limit (fuel + 1) s p #[] = .ok (list.foldl Token.expand #[]) := by
  have hbits : s.toList = [true, true, false] ++ (list.flatMap Token.bits ++
      (codeOf fixedLiteralCodes endOfBlock ++ rest)) := by
    rw [hs, fixedBlock]
    simp
  obtain ⟨s₁, hn, h₁⟩ := Source.number?_of_toList hbits
  obtain ⟨s₂, p₂, ht, -⟩ := tokens_flatMap_bits (Nat.lt_succ_of_le hfuel) h₁ p hsound hlimit
  have hheader : s.number? 3 = some (3, s₁) := hn
  simp only [blocks, block, hheader, bind, Except.bind, ht, pure, Except.pure]
  rfl

/-! ## Stored blocks -/

theorem copyStored_append {limit : Nat} {data : Bytes} {s : Source} {rest : Bytes}
    (hs : s.bytes = data ++ rest) (hp : s.pending = []) (p : Portion) {out : Array UInt8}
    (hlimit : out.size + data.length < limit) :
    ∃ s' p', copyStored limit data.length s p out = .ok (s', p', out ++ data) ∧
      s'.bytes = rest ∧ s'.pending = [] := by
  induction data generalizing s p out with
  | nil =>
    refine ⟨s, p, ?_, hs, hp⟩
    rw [List.length_nil, Nat.add_zero] at hlimit
    simp only [List.length_nil, copyStored, allow_of_lt hlimit]
    rfl
  | cons b data ih =>
    rw [List.length_cons] at hlimit
    have hbefore : out.size < limit := by omega
    have hb : s.byte? = some (b, ⟨[], data ++ rest, s.taken + 1⟩) := by
      rw [Source.byte?, hs]
      rfl
    have hafter : (out.push b).size + data.length < limit := by
      rw [Array.size_push]
      omega
    obtain ⟨s', p', hc, ht⟩ := ih (s := ⟨[], data ++ rest, s.taken + 1⟩) rfl rfl
      ((p.turn s.taken out.size).read (s.taken + 1) out.size) hafter
    refine ⟨s', p', ?_, ht⟩
    simp only [List.length_cons, copyStored, Nat.not_le.mpr hbefore, if_false, hb, hc]
    simp

theorem take32?_le16_le16 (a b : UInt16) (rest : Bytes) :
    Bytes.take32? (Bytes.le16 a ++ (Bytes.le16 b ++ rest)) =
      some (UInt32.ofNat (a.toNat + 65536 * b.toNat), rest) := by
  have ha := a.toNat_lt
  have hb := b.toNat_lt
  have hv : a.toNat % 256 + 256 * (a.toNat / 256 % 256) + 65536 * (b.toNat % 256) +
      16777216 * (b.toNat / 256 % 256) = a.toNat + 65536 * b.toNat := by omega
  simp only [Bytes.le16, List.cons_append, List.nil_append, Bytes.take32?, Bytes.toNat_ofNat, hv]

theorem stored_append {limit : Nat} {data : Bytes} (hdata : data.length ≤ maxStored) {s : Source}
    {rest : Bytes} (hs : s.bytes = Bytes.le16 (UInt16.ofNat data.length) ++
      (Bytes.le16 (UInt16.ofNat (maxStored - data.length)) ++ (data ++ rest)))
    (p : Portion) {out : Array UInt8} (hlimit : out.size + data.length < limit) :
    ∃ s' p', stored limit s p out = .ok (s', p', out ++ data) ∧ s'.bytes = rest ∧ s'.pending = [] := by
  have hmax : maxStored = 65535 := rfl
  have ha : (UInt16.ofNat data.length).toNat = data.length := by
    rw [UInt16.toNat_ofNat']
    omega
  have hb : (UInt16.ofNat (maxStored - data.length)).toNat = maxStored - data.length := by
    rw [UInt16.toNat_ofNat']
    omega
  have hword := take32?_le16_le16 (UInt16.ofNat data.length) (UInt16.ofNat (maxStored - data.length))
    (data ++ rest)
  rw [← hs, ha, hb] at hword
  have hv : (UInt32.ofNat (data.length + 65536 * (maxStored - data.length))).toNat =
      data.length + 65536 * (maxStored - data.length) := by
    rw [UInt32.toNat_ofNat']
    omega
  have hlow : (data.length + 65536 * (maxStored - data.length)) % 65536 = data.length := by omega
  have hsum : ¬ data.length + (data.length + 65536 * (maxStored - data.length)) / 65536 ≠ 65535 := by
    omega
  obtain ⟨s', p', hc, ht⟩ := copyStored_append (s := ⟨[], data ++ rest, s.taken + 4⟩) rfl rfl p hlimit
  refine ⟨s', p', ?_, ht⟩
  simp only [stored, Source.word?, hword, hv, hlow, hsum, if_false, hc]

theorem block_storedBlock {limit : Nat} (bound : Nat) (final : Bool) {data : Bytes}
    (hdata : data.length ≤ maxStored) {s : Source} {rest : Bytes}
    (hs : s.bytes = storedBlock final data ++ rest) (hp : s.pending = []) (p : Portion)
    {out : Array UInt8} (hlimit : out.size + data.length < limit) :
    ∃ s' p', block limit bound s p out = .ok (final, s', p', out ++ data) ∧
      s'.bytes = rest ∧ s'.pending = [] := by
  obtain ⟨pending, bytes, taken⟩ := s
  have hb : bytes = UInt8.ofNat final.toNat :: (Bytes.le16 (UInt16.ofNat data.length) ++
      (Bytes.le16 (UInt16.ofNat (maxStored - data.length)) ++ (data ++ rest))) := by
    rw [show bytes = _ from hs, storedBlock]
    simp
  -- the header takes three bits of the first byte, the other five are passed over
  have hheader : (⟨pending, bytes, taken⟩ : Source).number? 3 =
      some (final.toNat, ⟨List.replicate 5 false, Bytes.le16 (UInt16.ofNat data.length) ++
        (Bytes.le16 (UInt16.ofNat (maxStored - data.length)) ++ (data ++ rest)), taken + 1⟩) := by
    rw [show pending = [] from hp, hb]
    cases final <;> rfl
  obtain ⟨s', p', hc, ht⟩ := stored_append hdata (s := ⟨List.replicate 5 false, _, taken + 1⟩) rfl p hlimit
  refine ⟨s', p', ?_, ht⟩
  cases final
  · simp only [block, hheader, bind, Except.bind, Bool.toNat_false, Nat.zero_div, hc, pure, Except.pure]
    rfl
  · have hk : (true.toNat : Nat) / 2 = 0 := rfl
    simp only [block, hheader, bind, Except.bind, hk, hc, pure, Except.pure]
    rfl

theorem blocks_storedBlocks {limit more fuel : Nat} {data : Bytes}
    (hdata : data.length ≤ maxStored * (more + 1)) (hfuel : more < fuel) {s : Source}
    (hs : s.bytes = storedBlocks more data) (hp : s.pending = []) (p : Portion) {out : Array UInt8}
    (hlimit : out.size + data.length < limit) :
    blocks limit fuel s p out = .ok (out ++ data) := by
  induction more generalizing fuel data s p out with
  | zero =>
    cases fuel with
    | zero => exact absurd hfuel (Nat.not_lt_zero 0)
    | succ fuel =>
      rw [storedBlocks, ← List.append_nil (storedBlock true data)] at hs
      rw [Nat.zero_add, Nat.mul_one] at hdata
      obtain ⟨s', p', hb, -⟩ := block_storedBlock (fuel + 1) true hdata hs hp p hlimit
      simp only [blocks, hb, if_true]
  | succ more ih =>
    cases fuel with
    | zero => exact absurd hfuel (Nat.not_lt_zero _)
    | succ fuel =>
      have hsplit : (data.take maxStored).length + (data.drop maxStored).length = data.length := by
        rw [← List.length_append, List.take_append_drop]
      have htake : (data.take maxStored).length ≤ maxStored := by
        rw [List.length_take]
        exact Nat.min_le_left _ _
      have hdrop : (data.drop maxStored).length ≤ maxStored * (more + 1) := by
        rw [List.length_drop]
        rw [Nat.mul_succ] at hdata
        omega
      have hfront : out.size + (data.take maxStored).length < limit := by omega
      obtain ⟨s', p', hb, hs', hp'⟩ := block_storedBlock (fuel + 1) false htake hs hp p hfront
      have hsize : (out ++ data.take maxStored).size + (data.drop maxStored).length < limit := by
        rw [← Array.length_toList, Array.toList_appendList, List.length_append, Array.length_toList]
        omega
      have hr := ih hdrop (Nat.lt_of_succ_lt_succ hfuel) hs' hp' p' hsize
      have happend : out ++ data.take maxStored ++ data.drop maxStored = out ++ data := by
        apply Array.ext'
        simp only [Array.toList_appendList, List.append_assoc, List.take_append_drop]
      simp only [blocks, hb, Bool.false_eq_true, if_false, hr, happend]

end Inflate

/-! ## The stream -/

theorem le_length_storedBlocks (more : Nat) (data : Bytes) : more ≤ (storedBlocks more data).length := by
  induction more generalizing data with
  | zero => exact Nat.zero_le _
  | succ more ih =>
    have hd := ih (data.drop maxStored)
    rw [storedBlocks, List.length_append, storedBlock, List.length_cons]
    omega

theorem Token.Sound.length_le {out : Array UInt8} {tokens : List Token} (h : Token.Sound out tokens) :
    tokens.length ≤ (tokens.flatMap Token.bits).length := by
  induction tokens generalizing out with
  | nil => exact Nat.le_refl 0
  | cons token tokens ih =>
    have hb := h.1.one_le_length_bits
    have hr := ih h.2.2
    rw [List.flatMap_cons, List.length_append, List.length_cons]
    omega

theorem inflate_of_blocks {raw : Bytes} {limit : Nat} {out : Array UInt8} (hl : 0 < limit)
    (h : Inflate.blocks limit (8 * raw.length + 1) { bytes := raw } {} #[] = .ok out) :
    inflate raw limit = .ok out.toList := by
  rw [inflate, if_neg (Nat.ne_of_gt hl), h]

theorem inflate_storedBlocks {data : Bytes} {limit : Nat} (hlimit : data.length < limit) :
    inflate (storedBlocks ((data.length - 1) / maxStored) data) limit = .ok data := by
  have hmax : maxStored = 65535 := rfl
  have hdata : data.length ≤ maxStored * ((data.length - 1) / maxStored + 1) := by
    rw [hmax]
    omega
  have hfuel : (data.length - 1) / maxStored <
      8 * (storedBlocks ((data.length - 1) / maxStored) data).length + 1 := by
    have hl := le_length_storedBlocks ((data.length - 1) / maxStored) data
    omega
  have hout : (#[] : Array UInt8).size + data.length < limit := by
    rw [List.size_toArray, List.length_nil]
    omega
  have hb := Inflate.blocks_storedBlocks hdata hfuel
    (s := { bytes := storedBlocks ((data.length - 1) / maxStored) data }) rfl rfl {} hout
  rw [inflate_of_blocks (Nat.zero_lt_of_lt hlimit) hb, Array.toList_appendList]
  rfl

theorem inflate_fixedBlock {tokens : List Token} (hs : Token.Sound #[] tokens) {limit : Nat}
    (hlimit : (Token.toBytes tokens).length < limit) :
    inflate (pack (fixedBlock tokens)) limit = .ok (Token.toBytes tokens) := by
  obtain ⟨more, hbits⟩ := bitsOfBytes_pack (fixedBlock tokens)
  have hfuel : tokens.length ≤ 8 * (pack (fixedBlock tokens)).length := by
    have hl := hs.length_le
    rw [← length_bitsOfBytes, hbits, fixedBlock]
    simp only [List.cons_append, List.length_cons, List.length_append]
    omega
  have hout : (tokens.foldl Token.expand #[]).size < limit := by
    rw [← Array.length_toList]
    exact hlimit
  exact inflate_of_blocks (Nat.zero_lt_of_lt hlimit)
    (Inflate.blocks_fixedBlock hfuel (s := { bytes := pack (fixedBlock tokens) }) hbits {} hs hout)

/-- What was coded is decoded again, at every level. -/
theorem inflate_deflate (data : Bytes) (level : Level) {limit : Nat} (hlimit : data.length < limit) :
    inflate (deflate data level) limit = .ok data := by
  rw [deflate]
  split
  · exact inflate_storedBlocks hlimit
  · obtain ⟨hsound, hbytes⟩ := Token.covers_ofBytes data level.places
    have hl : (Token.toBytes (Token.ofBytes data level.places)).length < limit := by
      rw [hbytes]
      exact hlimit
    rw [inflate_fixedBlock hsound hl, hbytes]

end SourceLabel.Deflate
