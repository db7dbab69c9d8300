import SourceLabel.Deflate.Inflate
import SourceLabel.Proofs.Deflate.PrefixCode

/-!
# Tokens read back

A number is read back from the span that it was coded by. With the codes of the symbols before it, the
bits of a token are read as that token, whatever follows them.
-/
namespace SourceLabel.Deflate

/-! ## Spans -/

/-- Spans that follow each other without a gap and reach up to `top`. -/
def Reach (top : Nat) : List Span → Prop
  | [] => False
  | [span] => top < span.base + 2 ^ span.extra
  | span :: next :: spans => next.base ≤ span.base + 2 ^ span.extra ∧ Reach top (next :: spans)

theorem reach_lengthSpans : Reach Token.maxLength lengthSpans := by
  simp [Reach, lengthSpans, Token.maxLength]

theorem reach_distanceSpans : Reach Token.maxDistance distanceSpans := by
  simp [Reach, distanceSpans, Token.maxDistance]

theorem Reach.exists_span {top n : Nat} {span : Span} {spans : List Span} (h : Reach top (span :: spans))
    (hb : span.base ≤ n) (hn : n ≤ top) :
    ∃ i s, ((span :: spans).takeWhile (·.base ≤ n)).length = i + 1 ∧ (span :: spans)[i]? = some s ∧
      s.base ≤ n ∧ n < s.base + 2 ^ s.extra := by
  induction spans generalizing span with
  | nil =>
    refine ⟨0, span, ?_, rfl, hb, Nat.lt_of_le_of_lt hn h⟩
    rw [List.takeWhile_cons_of_pos (by simpa using hb)]
    rfl
  | cons next spans ih =>
    rw [List.takeWhile_cons_of_pos (by simpa using hb), List.length_cons]
    by_cases hx : next.base ≤ n
    · obtain ⟨i, s, hi, hs, hl, hu⟩ := ih h.2 hx
      exact ⟨i + 1, s, by rw [hi], hs, hl, hu⟩
    · refine ⟨0, span, ?_, rfl, hb, ?_⟩
      · rw [List.takeWhile_cons_of_neg (by simpa using hx)]
        rfl
      · have hg := h.1
        omega

/-- A number in a span is coded as the symbol of the span and a place in it, and read back from these. -/
theorem exists_codeInSpans (codes : Array (List Bool)) (first : Nat) {top n : Nat} {span : Span}
    {spans : List Span} (h : Reach top spans) (hs : spans.head? = some span) (hb : span.base ≤ n)
    (hn : n ≤ top) :
    ∃ i extra, i < spans.length ∧
      codeInSpans codes first spans n = codeOf codes (first + i) ++ extra ∧
      ∀ (s : Source) (rest : List Bool), s.toList = extra ++ rest →
        ∃ s', Inflate.spanNumber spans i s = .ok (n, s') ∧ s'.toList = rest := by
  obtain ⟨others, hc⟩ := List.head?_eq_some_iff.mp hs
  subst hc
  obtain ⟨i, found, hi, hf, hl, hu⟩ := h.exists_span hb hn
  refine ⟨i, bitsOfNumber found.extra (n - found.base), ?_, ?_, ?_⟩
  · exact (List.getElem?_eq_some_iff.mp hf).1
  · have hp : i + 1 - 1 = i := rfl
    simp only [codeInSpans, hi, hp, hf]
  · intro s rest hs
    have hd : n - found.base < 2 ^ found.extra := by omega
    obtain ⟨s', hr, ht⟩ := Source.number?_bitsOfNumber hd hs
    have hv : found.base + (n - found.base) = n := by omega
    refine ⟨s', ?_, ht⟩
    simp only [Inflate.spanNumber, hf, hr, hv]

theorem lengthSymbol_lt {i : Nat} (h : i < lengthSpans.length) : endOfBlock + 1 + i < 288 := by
  have hl : lengthSpans.length = 29 := rfl
  have he : endOfBlock = 256 := rfl
  omega

theorem distanceSymbol_lt {i : Nat} (h : i < distanceSpans.length) : 0 + i < 32 := by
  have hl : distanceSpans.length = 30 := rfl
  omega

/-! ## Tokens -/

/-- A token whose numbers the alphabets can say. -/
def Token.Codable : Token → Prop
  | .literal _ => True
  | .copy length distance =>
    (minLength ≤ length ∧ length ≤ maxLength) ∧ 1 ≤ distance ∧ distance ≤ maxDistance

theorem Token.Codable.one_le_length_bits {token : Token} (h : token.Codable) : 1 ≤ token.bits.length := by
  cases token with
  | literal b =>
    have hb : b.toNat < 288 := Nat.lt_trans b.toNat_lt (by decide)
    exact one_le_length_fixedLiteralCodes hb
  | copy length distance =>
    obtain ⟨⟨hmin, hmax⟩, -⟩ := h
    obtain ⟨i, more, hi, hl, -⟩ :=
      exists_codeInSpans fixedLiteralCodes (endOfBlock + 1) reach_lengthSpans rfl hmin hmax
    have hc := one_le_length_fixedLiteralCodes (lengthSymbol_lt hi)
    rw [Token.bits, hl, List.length_append, List.length_append]
    omega

namespace Inflate

theorem nextToken_endOfBlock {s : Source} {rest : List Bool}
    (hs : s.toList = codeOf fixedLiteralCodes endOfBlock ++ rest) :
    ∃ s', nextToken (treeOfLengths fixedLiteralLengths) (treeOfLengths fixedDistanceLengths) s =
      .ok (none, s') ∧ s'.toList = rest := by
  have he : endOfBlock < 288 := by decide
  obtain ⟨s', hd, ht⟩ := Tree.decode_of_symbolAt? (symbolAt?_fixedLiteralCodes he) hs
  refine ⟨s', ?_, ht⟩
  simp only [nextToken, hd, Nat.lt_irrefl, if_false, if_true]

theorem nextToken_bits {token : Token} (h : token.Codable) {s : Source} {rest : List Bool}
    (hs : s.toList = token.bits ++ rest) :
    ∃ s', nextToken (treeOfLengths fixedLiteralLengths) (treeOfLengths fixedDistanceLengths) s =
      .ok (some token, s') ∧ s'.toList = rest := by
  cases token with
  | literal b =>
    have hb : b.toNat < endOfBlock := b.toNat_lt
    have hc : b.toNat < 288 := Nat.lt_trans hb (by decide)
    obtain ⟨s', hd, ht⟩ := Tree.decode_of_symbolAt? (symbolAt?_fixedLiteralCodes hc) hs
    refine ⟨s', ?_, ht⟩
    simp only [nextToken, hd, hb, if_true, UInt8.ofNat_toNat]
  | copy length distance =>
    obtain ⟨⟨hmin, hmax⟩, hone, hfar⟩ := h
    obtain ⟨i, more, hi, hl, hlength⟩ :=
      exists_codeInSpans fixedLiteralCodes (endOfBlock + 1) reach_lengthSpans rfl hmin hmax
    obtain ⟨j, far, hj, hd, hdistance⟩ :=
      exists_codeInSpans fixedDistanceCodes 0 reach_distanceSpans rfl hone hfar
    have hbits : s.toList = codeOf fixedLiteralCodes (endOfBlock + 1 + i) ++ (more ++
        (codeOf fixedDistanceCodes (0 + j) ++ (far ++ rest))) := by
      rw [hs, Token.bits, hl, hd]
      simp only [List.append_assoc]
    obtain ⟨s₁, hr₁, ht₁⟩ := Tree.decode_of_symbolAt? (symbolAt?_fixedLiteralCodes (lengthSymbol_lt hi)) hbits
    obtain ⟨s₂, hr₂, ht₂⟩ := hlength s₁ _ ht₁
    obtain ⟨s₃, hr₃, ht₃⟩ := Tree.decode_of_symbolAt? (symbolAt?_fixedDistanceCodes (distanceSymbol_lt hj)) ht₂
    obtain ⟨s₄, hr₄, ht₄⟩ := hdistance s₃ _ ht₃
    have hlt : ¬ endOfBlock + 1 + i < endOfBlock := by omega
    have hne : endOfBlock + 1 + i ≠ endOfBlock := by omega
    have hsub : endOfBlock + 1 + i - endOfBlock - 1 = i := by omega
    rw [Nat.zero_add] at hr₃
    refine ⟨s₄, ?_, ht₄⟩
    simp only [nextToken, hr₁, hlt, hne, if_false, hsub, hr₂, hr₃, hr₄]

end Inflate
end SourceLabel.Deflate
