import SourceLabel.Proofs.Deflate.Consumed
import SourceLabel.Proofs.Deflate.Halting

/-!
# What a stream stands for

A stream is a sequence of blocks up to the final one, and stands for what their tokens and stored bytes yield one
after the other. This says nothing of limits, of how data is fetched, or of how long decoding may take. A decoder
that is asked for so many bytes may halt early, with all of them there; then it has not seen what follows. But
with fewer bytes it has not halted, and has read up to the end of the final block. So to ask for one byte more
than is expected tells the streams that stand for the expected number of bytes from all others.
-/
namespace SourceLabel.Deflate

open Inflate Result

/-! ## Blocks -/

/-- The tokens of a block turn `out` into `out'`, and the end of the block leaves `s'` to be read. -/
inductive Coded (literals distances : Tree) : Source → Array UInt8 → Source → Array UInt8 → Prop
  | stop {s s' : Source} {out : Array UInt8} : nextToken literals distances s = .ok (none, s') →
      Coded literals distances s out s' out
  | token {s s₁ s' : Source} {token : Token} {out out' : Array UInt8} :
      nextToken literals distances s = .ok (some token, s₁) → token.reaches out →
      Coded literals distances s₁ (token.expand out) s' out' → Coded literals distances s out s' out'

/-- The rest of the byte under way is passed over. The length is written twice, the second time inverted, and then
come as many bytes. -/
inductive Stored : Source → Array UInt8 → Source → Array UInt8 → Prop
  | mk {s : Source} {length : UInt16} {data rest : Bytes} (out : Array UInt8) :
      s.bytes = Bytes.le16 length ++ (Bytes.le16 (~~~length) ++ (data ++ rest)) → data.length = length.toNat →
      Stored s out ⟨[], rest, s.taken + 4 + data.length⟩ (out ++ data)

/-- A block begins with a bit that says whether it is the final one, and two bits that say of what kind it is. -/
inductive Block (final : Bool) : Source → Array UInt8 → Source → Array UInt8 → Prop
  | stored {s s₁ s' : Source} {out out' : Array UInt8} : s.number? 3 = some (final.toNat, s₁) →
      Stored s₁ out s' out' → Block final s out s' out'
  | fixed {s s₁ s' : Source} {out out' : Array UInt8} : s.number? 3 = some (final.toNat + 2, s₁) →
      Coded (treeOfLengths fixedLiteralLengths) (treeOfLengths fixedDistanceLengths) s₁ out s' out' →
      Block final s out s' out'
  | own {s s₁ s₂ s' : Source} {literals distances : Tree} {out out' : Array UInt8} :
      s.number? 3 = some (final.toNat + 4, s₁) → trees s₁ = .ok (literals, distances, s₂) →
      Coded literals distances s₂ out s' out' → Block final s out s' out'

/-- The blocks up to the final one turn `out` into `out'`. -/
inductive Blocks : Source → Array UInt8 → Array UInt8 → Prop
  | final {s s' : Source} {out out' : Array UInt8} : Block true s out s' out' → Blocks s out out'
  | more {s s₁ : Source} {out out₁ out' : Array UInt8} :
      Block false s out s₁ out₁ → Blocks s₁ out₁ out' → Blocks s out out'

/-- Decoded to the end of its final block, the stream yields the data. What follows the final block is no part of
the stream. -/
def StandsFor (raw data : Bytes) : Prop :=
  Blocks { bytes := raw } #[] data.toArray

variable {literals distances : Tree} {s s' : Source} {p p' : Portion} {out out' : Array UInt8} {limit fuel : Nat}

/-! ## Nothing is taken back -/

theorem Coded.size_le (h : Coded literals distances s out s' out') : out.size ≤ out'.size := by
  induction h with
  | stop _ => exact Nat.le_refl _
  | token _ _ _ ih => exact Nat.le_trans (size_le_expand _ _) ih

@[simp] theorem size_append (out : Array UInt8) (data : Bytes) : (out ++ data).size = out.size + data.length := by
  rw [← Array.length_toList, Array.toList_appendList, List.length_append, Array.length_toList]

theorem Stored.size_le (h : Stored s out s' out') : out.size ≤ out'.size := by
  obtain ⟨out, -, -⟩ := h
  rw [size_append]
  exact Nat.le_add_right _ _

theorem Block.size_le {final : Bool} (h : Block final s out s' out') : out.size ≤ out'.size := by
  cases h with
  | stored _ h => exact h.size_le
  | fixed _ h => exact h.size_le
  | own _ _ h => exact h.size_le

theorem Blocks.size_le (h : Blocks s out out') : out.size ≤ out'.size := by
  induction h with
  | final h => exact h.size_le
  | more h _ ih => exact Nat.le_trans h.size_le ih

namespace Inflate

/-! ## What is decoded is what the stream stands for -/

/-- If fewer bytes are there at the end than are wanted, so were there before every token, and all data could be
fetched. -/
theorem tokens_sound (h : tokens literals distances limit fuel s p out = .ok (s', p', out'))
    (hlimit : out'.size < limit) : Coded literals distances s out s' out' := by
  induction fuel generalizing s p out with
  | zero => cases h
  | succ fuel ih =>
    rw [tokens] at h
    split at h
    · cases h
    · next s₁ hnext =>
      obtain ⟨rfl, hrest⟩ := Prod.mk.inj (Except.ok.inj h)
      obtain ⟨-, rfl⟩ := Prod.mk.inj hrest
      exact .stop hnext
    next token s₁ hnext =>
    split at h
    · cases h
    split at h
    · cases h
    next hreach =>
    dsimp only at h
    split at h
    · cases h
    next hroom =>
    have hafter : (token.expand out).size < limit :=
      Nat.lt_of_le_of_lt ((bounded_tokens (Nat.not_lt.mp hroom)).of_ok h).1 hlimit
    rw [allow_of_lt hafter] at h
    have hreaches : token.reaches out := by simpa using hreach
    exact .token hnext hreaches (ih h)

theorem copyStored_sound {length : Nat} (hp : s.pending = [])
    (h : copyStored limit length s p out = .ok (s', p', out')) (hlimit : out'.size < limit) :
    ∃ data rest, data.length = length ∧ s.bytes = data ++ rest ∧ s' = ⟨[], rest, s.taken + length⟩ ∧
      out' = out ++ data := by
  induction length generalizing s p out with
  | zero =>
    rw [copyStored] at h
    obtain ⟨hs, hrest⟩ := Prod.mk.inj (Except.ok.inj h)
    obtain ⟨-, rfl⟩ := Prod.mk.inj hrest
    rw [allow_of_lt hlimit] at hs
    refine ⟨[], s.bytes, rfl, rfl, ?_, ?_⟩
    · rw [← hs, ← hp]
      rfl
    · exact Array.ext' (by rw [Array.toList_appendList, List.append_nil])
  | succ length ih =>
    rw [copyStored] at h
    split at h
    · cases h
    dsimp only at h
    split at h
    · cases h
    next b s₁ hbyte =>
    unfold Source.byte? at hbyte
    split at hbyte
    · cases hbyte
    next first more hbytes =>
    obtain ⟨rfl, rfl⟩ := Prod.mk.inj (Option.some.inj hbyte)
    obtain ⟨data, rest, hlength, hmore, hs', hout'⟩ := ih rfl h
    refine ⟨first :: data, rest, ?_, ?_, ?_, ?_⟩
    · rw [List.length_cons, hlength]
    · rw [hbytes, show more = data ++ rest from hmore, List.cons_append]
    · rw [hs', Nat.add_assoc, Nat.add_comm 1]
    · rw [hout']
      apply Array.ext'
      simp

theorem le32_of_halves {word : UInt32} (h : word.toNat % 65536 + word.toNat / 65536 = 65535) :
    Bytes.le32 word =
      Bytes.le16 (UInt16.ofNat (word.toNat % 65536)) ++ Bytes.le16 (~~~UInt16.ofNat (word.toNat % 65536)) := by
  have hsame : ∀ {m n : Nat}, m % 256 = n % 256 → UInt8.ofNat m = UInt8.ofNat n := by
    intro m n hmn
    exact Bytes.ofNat_eq (by rw [hmn, Bytes.toNat_ofNat])
  have hfirst : ∀ n, n % 256 = n % 65536 % 256 := by omega
  have hsecond : ∀ n, n / 256 % 256 = n % 65536 / 256 % 256 := by omega
  have hfourth : ∀ n, n / 16777216 % 256 = n / 65536 / 256 % 256 := by omega
  have hlow : (UInt16.ofNat (word.toNat % 65536)).toNat = word.toNat % 65536 := by
    rw [UInt16.toNat_ofNat']
    omega
  have hhigh : (~~~UInt16.ofNat (word.toNat % 65536)).toNat = word.toNat / 65536 := by
    rw [UInt16.toNat_not, hlow]
    have hsize : UInt16.size = 65536 := rfl
    omega
  rw [Bytes.le16, Bytes.le16, hlow, hhigh, Bytes.le32, hsame (hfirst _), hsame (hsecond _), hsame (hfourth _)]
  rfl

theorem stored_sound (h : stored limit s p out = .ok (s', p', out')) (hlimit : out'.size < limit) :
    Stored s out s' out' := by
  unfold stored at h
  split at h
  · cases h
  next word s₁ hword =>
  unfold Source.word? at hword
  split at hword
  · cases hword
  next word₁ more htake =>
  obtain ⟨rfl, rfl⟩ := Prod.mk.inj (Option.some.inj hword)
  dsimp only at h
  split at h
  · cases h
  next hsum =>
  obtain ⟨data, rest, hlength, hmore, rfl, rfl⟩ := copyStored_sound rfl h hlimit
  have hbytes : s.bytes = Bytes.le16 (UInt16.ofNat (word₁.toNat % 65536)) ++
      (Bytes.le16 (~~~UInt16.ofNat (word₁.toNat % 65536)) ++ (data ++ rest)) := by
    rw [Bytes.take32?_eq_some.mp htake, le32_of_halves (not_ne_iff.mp hsum), List.append_assoc,
      show more = data ++ rest from hmore]
  have hfits : data.length = (UInt16.ofNat (word₁.toNat % 65536)).toNat := by
    rw [hlength, UInt16.toNat_ofNat']
    omega
  rw [← hlength]
  exact .mk out hbytes hfits

theorem body_sound {bound kind : Nat} {final : Bool} {s₁ : Source}
    (hheader : s.number? 3 = some (final.toNat + 2 * kind, s₁))
    (h : body limit bound kind s₁ p out = .ok (s', p', out')) (hlimit : out'.size < limit) :
    Block final s out s' out' := by
  unfold body at h
  split at h
  · exact .stored hheader (stored_sound h hlimit)
  · exact .fixed hheader (tokens_sound h hlimit)
  · split at h
    · cases h
    · next htrees => exact .own hheader htrees (tokens_sound h hlimit)
  · cases h

theorem blocks_sound (hout : out.size ≤ limit) (h : blocks limit fuel s p out = .ok out') (hlimit : out'.size < limit) :
    Blocks s out out' := by
  induction fuel generalizing s p out with
  | zero => cases h
  | succ fuel ih =>
    rw [blocks] at h
    split at h
    · cases h
    next final s₁ p₁ out₁ hblock =>
    obtain ⟨kind, s₂, hheader, hbody⟩ := block_eq_ok hblock
    have hafter : out₁.size ≤ limit := ((bounded_body hout).of_ok hbody).2
    cases final with
    | true =>
      obtain rfl := Except.ok.inj h
      exact .final (body_sound hheader hbody hlimit)
    | false =>
      have hless : out₁.size < limit := Nat.lt_of_le_of_lt ((bounded_blocks hafter).of_ok h).1 hlimit
      exact .more (body_sound hheader hbody hless) (ih hafter h)

/-! ## What the stream stands for is decoded -/

/-- Each token uses up bits, so the end of the block is reached. -/
theorem tokens_complete (hl : literals.Branches) (h : Coded literals distances s out s' out')
    (hfuel : s.size < fuel) (hlimit : out'.size < limit) :
    ∃ p', tokens literals distances limit fuel s p out = .ok (s', p', out') ∧ s'.size < s.size := by
  induction h generalizing fuel p with
  | stop hnext =>
    cases fuel with
    | zero => exact absurd hfuel (Nat.not_lt_zero _)
    | succ fuel =>
      refine ⟨p, ?_, nextToken_size_lt hl hnext⟩
      rw [tokens, hnext]
  | @token s s₁ s' token out out' hnext hreach hmore ih =>
    cases fuel with
    | zero => exact absurd hfuel (Nat.not_lt_zero _)
    | succ fuel =>
      have hless := nextToken_size_lt hl hnext
      have hafter : (token.expand out).size < limit := Nat.lt_of_le_of_lt hmore.size_le hlimit
      have hbefore : out.size < limit := Nat.lt_of_le_of_lt (size_le_expand out token) hafter
      have hfuel' : s₁.size < fuel := by omega
      obtain ⟨p', hrest, hsize⟩ := ih
        (p := (p.read s₁.taken out.size).turn s₁.taken ((token.expand out).size - 1)) hfuel' hlimit
      refine ⟨p', ?_, Nat.lt_trans hsize hless⟩
      simp only [tokens, hnext, Nat.not_le.mpr hbefore, Nat.not_lt.mpr (Nat.le_of_lt hafter), hreach, Bool.not_true,
        Bool.false_eq_true, if_false, allow_of_lt hafter, hrest]

theorem copyStored_complete (data rest : Bytes) (taken : Nat) (hlimit : (out ++ data).size < limit) :
    ∃ p', copyStored limit data.length ⟨[], data ++ rest, taken⟩ p out =
      .ok (⟨[], rest, taken + data.length⟩, p', out ++ data) := by
  have hsize : out.size + data.length < limit := by rwa [← size_append]
  -- how much is taken is known from what was copied
  obtain ⟨s', p', hcopy, -⟩ := copyStored_append (s := ⟨[], data ++ rest, taken⟩) rfl rfl p hsize
  obtain ⟨front, more, hlength, hbytes, rfl, -⟩ := copyStored_sound rfl hcopy hlimit
  obtain ⟨-, rfl⟩ := List.append_inj hbytes hlength.symm
  exact ⟨p', hcopy⟩

theorem stored_complete (h : Stored s out s' out') (hlimit : out'.size < limit) :
    ∃ p', stored limit s p out = .ok (s', p', out') ∧ s'.size ≤ s.size := by
  obtain @⟨length, data, rest, _, hbytes, hlength⟩ := h
  have hlt := length.toNat_lt
  have hnot : (~~~length).toNat = 65535 - length.toNat := by
    rw [UInt16.toNat_not]
    rfl
  have hword : (UInt32.ofNat (length.toNat + 65536 * (~~~length).toNat)).toNat =
      length.toNat + 65536 * (65535 - length.toNat) := by
    rw [hnot, UInt32.toNat_ofNat']
    omega
  have hlow : (length.toNat + 65536 * (65535 - length.toNat)) % 65536 = data.length := by omega
  have hsum : ¬ data.length + (length.toNat + 65536 * (65535 - length.toNat)) / 65536 ≠ 65535 := by omega
  obtain ⟨p', hcopy⟩ := copyStored_complete (p := p) data rest (s.taken + 4) hlimit
  refine ⟨p', ?_, ?_⟩
  · simp only [stored, Source.word?, hbytes, take32?_le16_le16, hword, hlow, hsum, if_false, hcopy]
  · simp only [Source.size, hbytes, List.length_append, List.length_nil]
    omega

theorem block_complete {bound : Nat} {final : Bool} (h : Block final s out s' out') (hfuel : s.size ≤ bound)
    (hlimit : out'.size < limit) :
    ∃ p', block limit bound s p out = .ok (final, s', p', out') ∧ s'.size < s.size := by
  cases h with
  | @stored s₁ _ _ _ hheader hstored =>
    have hbits := Source.number?_size hheader
    obtain ⟨p', hok, hsize⟩ := stored_complete (p := p) hstored hlimit
    refine ⟨p', ?_, by omega⟩
    rw [block_eq_body 0 hheader, body, hok]
    rfl
  | @fixed s₁ _ _ _ hheader hcoded =>
    have hbits := Source.number?_size hheader
    obtain ⟨p', hok, hsize⟩ := tokens_complete (p := p) (Tree.branches_treeOfLengths _) hcoded
      (show s₁.size < bound by omega) hlimit
    refine ⟨p', ?_, by omega⟩
    rw [block_eq_body 1 hheader, body, hok]
    rfl
  | @own s₁ s₂ _ literals distances _ _ hheader htrees hcoded =>
    have hbits := Source.number?_size hheader
    obtain ⟨htree, hbranches⟩ := trees_size_le htrees
    obtain ⟨p', hok, hsize⟩ := tokens_complete (p := p) hbranches hcoded (show s₂.size < bound by omega) hlimit
    refine ⟨p', ?_, by omega⟩
    rw [block_eq_body 2 hheader, body, htrees]
    simp only [hok]
    rfl

theorem blocks_complete (h : Blocks s out out') (hfuel : s.size < fuel) (hlimit : out'.size < limit) :
    blocks limit fuel s p out = .ok out' := by
  induction h generalizing fuel p with
  | final hblock =>
    cases fuel with
    | zero => exact absurd hfuel (Nat.not_lt_zero _)
    | succ fuel =>
      obtain ⟨p', hok, -⟩ := block_complete (p := p) hblock (Nat.le_of_lt hfuel) hlimit
      rw [blocks, hok]
      rfl
  | more hblock hrest ih =>
    cases fuel with
    | zero => exact absurd hfuel (Nat.not_lt_zero _)
    | succ fuel =>
      obtain ⟨p', hok, hsize⟩ := block_complete (p := p) hblock (Nat.le_of_lt hfuel)
        (Nat.lt_of_le_of_lt hrest.size_le hlimit)
      rw [blocks, hok]
      exact ih (Nat.lt_of_lt_of_le hsize (Nat.le_of_lt_succ hfuel)) hlimit

end Inflate

/-! ## The stream -/

/-- To ask for more than the data tells the streams that stand for it: decoding has not halted, and no stream that
stands for the data halts. -/
theorem inflate_eq_ok_iff {raw data : Bytes} (hlimit : data.length < limit) :
    inflate raw limit = .ok data ↔ StandsFor raw data := by
  have hempty : (#[] : Array UInt8).size ≤ limit := Nat.zero_le limit
  have hsome : limit ≠ 0 := Nat.ne_of_gt (Nat.zero_lt_of_lt hlimit)
  constructor
  · intro h
    rw [inflate, if_neg hsome] at h
    split at h
    · next out hblocks =>
      obtain rfl := Except.ok.inj h
      exact blocks_sound hempty hblocks hlimit
    · next out hblocks =>
      obtain rfl := Except.ok.inj h
      have hfull : out.size = limit := (bounded_blocks hempty).of_error hblocks
      rw [Array.length_toList] at hlimit
      omega
    · cases h
  · intro h
    have hfuel : ({ bytes := raw } : Source).size < 8 * raw.length + 1 := by
      simp only [Source.size, List.length_nil]
      omega
    exact inflate_of_blocks (Nat.zero_lt_of_lt hlimit) (blocks_complete h hfuel hlimit)

/-- A stream stands for no more than one thing. -/
theorem StandsFor.unique {raw a b : Bytes} (ha : StandsFor raw a) (hb : StandsFor raw b) : a = b := by
  have hla : a.length < max a.length b.length + 1 := by omega
  have hlb : b.length < max a.length b.length + 1 := by omega
  have hok := (inflate_eq_ok_iff hla).mpr ha
  rw [(inflate_eq_ok_iff hlb).mpr hb] at hok
  exact (Except.ok.inj hok).symm

theorem standsFor_deflate (data : Bytes) (level : Level) : StandsFor (deflate data level) data :=
  (inflate_eq_ok_iff (Nat.lt_succ_self _)).mp (inflate_deflate data level (Nat.lt_succ_self _))

end SourceLabel.Deflate
