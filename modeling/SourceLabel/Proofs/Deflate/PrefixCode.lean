import SourceLabel.Deflate.Encode
import SourceLabel.Proofs.Deflate.Bits

/-!
# Codes and their tree

If each canonical code leads to its own symbol in the tree, then so does each code that is looked up in
the table of the coder. The two fixed codes have this property.
-/
namespace SourceLabel.Deflate

/-- The symbol at the end of a path. -/
def Tree.symbolAt? : Tree → List Bool → Option Nat
  | .leaf symbol, [] => some symbol
  | .node zero one, b :: path => symbolAt? (if b then one else zero) path
  | _, _ => none

theorem Tree.decode_of_symbolAt? {t : Tree} {path rest : List Bool} {symbol : Nat} {s : Source}
    (ht : t.symbolAt? path = some symbol) (hs : s.toList = path ++ rest) :
    ∃ s', t.decode s = .ok (symbol, s') ∧ s'.toList = rest := by
  induction path generalizing t s with
  | nil =>
    cases t with
    | vacant => exact nomatch ht
    | leaf found =>
      have hf : found = symbol := Option.some.inj ht
      exact ⟨s, by rw [decode, hf], hs⟩
    | node zero one => exact nomatch ht
  | cons b path ih =>
    cases t with
    | vacant => exact nomatch ht
    | leaf found => exact nomatch ht
    | node zero one =>
      obtain ⟨s₁, hn, h₁⟩ := Source.next?_of_toList hs
      obtain ⟨s₂, hd, h₂⟩ := ih ht h₁
      refine ⟨s₂, ?_, h₂⟩
      rw [decode, hn]
      cases b
      · exact hd
      · exact hd

/-! ## Which symbols have a code -/

theorem numberCodes_symbols (length first : Nat) (symbols : List Nat) :
    (numberCodes length first symbols).1.map Prod.fst = symbols := by
  induction symbols generalizing first with
  | nil => rfl
  | cons symbol symbols ih => simp only [numberCodes, List.map_cons, ih]

theorem mem_symbolsOfLength {lengths : List Nat} {symbol length : Nat}
    (h : lengths[symbol]? = some length) : symbol ∈ symbolsOfLength lengths length := by
  have hz : (length, symbol) ∈ lengths.zipIdx := by
    apply List.mem_zipIdx_iff_getElem?.mpr
    exact h
  apply List.mem_map.mpr
  refine ⟨(length, symbol), ?_, rfl⟩
  apply List.mem_filter.mpr
  exact ⟨hz, beq_self_eq_true length⟩

theorem mem_codesFrom {lengths : List Nat} {symbol length : Nat} (h : lengths[symbol]? = some length)
    {left start : Nat} (first : Nat) (hl : start ≤ length) (hu : length < start + left) :
    symbol ∈ (codesFrom lengths left start first).map Prod.fst := by
  induction left generalizing start first with
  | zero => omega
  | succ left ih =>
    simp only [codesFrom, List.map_append, numberCodes_symbols]
    apply List.mem_append.mpr
    by_cases he : start = length
    · left
      rw [he]
      exact mem_symbolsOfLength h
    · right
      apply ih
      · omega
      · omega

theorem length_numberCodes {length first : Nat} {symbols : List Nat} {c : Nat × List Bool}
    (h : c ∈ (numberCodes length first symbols).1) : c.2.length = length := by
  induction symbols generalizing first with
  | nil => exact absurd h List.not_mem_nil
  | cons symbol symbols ih =>
    simp only [numberCodes] at h
    rcases List.mem_cons.mp h with he | hm
    · simp [he, pathOfNumber]
    · exact ih hm

theorem le_length_of_mem_codesFrom {lengths : List Nat} {left start first : Nat} {c : Nat × List Bool}
    (h : c ∈ codesFrom lengths left start first) : start ≤ c.2.length := by
  induction left generalizing start first with
  | zero => exact absurd h List.not_mem_nil
  | succ left ih =>
    simp only [codesFrom] at h
    rcases List.mem_append.mp h with hm | hm
    · exact Nat.le_of_eq (length_numberCodes hm).symm
    · exact Nat.le_of_succ_le (ih hm)

/-- Lengths that give every symbol a code. -/
def AllCoded (lengths : List Nat) : Prop :=
  ∀ length ∈ lengths, 1 ≤ length ∧ length ≤ maxLength

theorem AllCoded.mem_canonicalCodes {lengths : List Nat} (h : AllCoded lengths) {symbol : Nat}
    (hs : symbol < lengths.length) : symbol ∈ (canonicalCodes lengths).map Prod.fst := by
  have hl := h lengths[symbol] (List.getElem_mem hs)
  apply mem_codesFrom (List.getElem?_eq_getElem hs)
  · exact hl.1
  · omega

/-! ## The table of the coder -/

/-- Of all codes that are entered under a symbol, one stays there. -/
theorem mem_of_codeOf_foldl (codes : List (Nat × List Bool)) (table : Array (List Bool)) {symbol : Nat}
    (hs : symbol < table.size) :
    (symbol, codeOf (codes.foldl (fun table c => table.setIfInBounds c.1 c.2) table) symbol) ∈ codes ∨
      symbol ∉ codes.map Prod.fst ∧
        codeOf (codes.foldl (fun table c => table.setIfInBounds c.1 c.2) table) symbol =
          codeOf table symbol := by
  induction codes generalizing table with
  | nil => exact .inr ⟨List.not_mem_nil, rfl⟩
  | cons c codes ih =>
    obtain ⟨entered, code⟩ := c
    have hsize : symbol < (table.setIfInBounds entered code).size := by
      rw [Array.size_setIfInBounds]
      exact hs
    rw [List.foldl_cons]
    rcases ih (table.setIfInBounds entered code) hsize with hm | ⟨hn, hc⟩
    · exact .inl (List.mem_cons_of_mem _ hm)
    · rw [hc]
      by_cases he : symbol = entered
      · subst he
        left
        have hv : codeOf (table.setIfInBounds symbol code) symbol = code := by
          rw [codeOf, Array.getElem?_setIfInBounds_self_of_lt hs]
          rfl
        rw [hv]
        exact List.mem_cons_self
      · right
        constructor
        · simpa [he] using hn
        · rw [codeOf, Array.getElem?_setIfInBounds_ne (Ne.symm he)]
          rfl

theorem AllCoded.codeOf_mem {lengths : List Nat} (h : AllCoded lengths) {symbol : Nat}
    (hs : symbol < lengths.length) :
    (symbol, codeOf (codeTable lengths) symbol) ∈ canonicalCodes lengths := by
  have hsize : symbol < (Array.replicate lengths.length ([] : List Bool)).size := by
    rw [Array.size_replicate]
    exact hs
  rcases mem_of_codeOf_foldl (canonicalCodes lengths) _ hsize with hm | ⟨hn, -⟩
  · exact hm
  · exact absurd (h.mem_canonicalCodes hs) hn

theorem AllCoded.one_le_length_codeOf {lengths : List Nat} (h : AllCoded lengths) {symbol : Nat}
    (hs : symbol < lengths.length) : 1 ≤ (codeOf (codeTable lengths) symbol).length :=
  le_length_of_mem_codesFrom (h.codeOf_mem hs)

/-- Every code leads to its own symbol. -/
def Unambiguous (lengths : List Nat) : Prop :=
  ∀ c ∈ canonicalCodes lengths, (treeOfLengths lengths).symbolAt? c.2 = some c.1

instance (lengths : List Nat) : Decidable (Unambiguous lengths) :=
  inferInstanceAs (Decidable (∀ c ∈ canonicalCodes lengths, _))

theorem symbolAt?_codeOf {lengths : List Nat} (hc : AllCoded lengths) (hu : Unambiguous lengths)
    {symbol : Nat} (hs : symbol < lengths.length) :
    (treeOfLengths lengths).symbolAt? (codeOf (codeTable lengths) symbol) = some symbol :=
  hu _ (hc.codeOf_mem hs)

/-! ## The fixed codes -/

@[simp] theorem length_fixedLiteralLengths : fixedLiteralLengths.length = 288 := by
  simp only [fixedLiteralLengths, List.length_append, List.length_replicate]

@[simp] theorem length_fixedDistanceLengths : fixedDistanceLengths.length = 32 := by
  simp only [fixedDistanceLengths, List.length_replicate]

theorem allCoded_fixedLiteralLengths : AllCoded fixedLiteralLengths := by
  intro length hl
  simp only [fixedLiteralLengths, List.mem_append, List.mem_replicate] at hl
  unfold maxLength
  omega

theorem allCoded_fixedDistanceLengths : AllCoded fixedDistanceLengths := by
  intro length hl
  simp only [fixedDistanceLengths, List.mem_replicate] at hl
  unfold maxLength
  omega

theorem unambiguous_fixedLiteralLengths : Unambiguous fixedLiteralLengths := by
  decide +kernel

theorem unambiguous_fixedDistanceLengths : Unambiguous fixedDistanceLengths := by
  decide +kernel

theorem symbolAt?_fixedLiteralCodes {symbol : Nat} (h : symbol < 288) :
    (treeOfLengths fixedLiteralLengths).symbolAt? (codeOf fixedLiteralCodes symbol) = some symbol := by
  have hs : symbol < fixedLiteralLengths.length := by
    rw [length_fixedLiteralLengths]
    exact h
  exact symbolAt?_codeOf allCoded_fixedLiteralLengths unambiguous_fixedLiteralLengths hs

theorem one_le_length_fixedLiteralCodes {symbol : Nat} (h : symbol < 288) :
    1 ≤ (codeOf fixedLiteralCodes symbol).length := by
  apply allCoded_fixedLiteralLengths.one_le_length_codeOf
  rw [length_fixedLiteralLengths]
  exact h

theorem symbolAt?_fixedDistanceCodes {symbol : Nat} (h : symbol < 32) :
    (treeOfLengths fixedDistanceLengths).symbolAt? (codeOf fixedDistanceCodes symbol) = some symbol := by
  have hs : symbol < fixedDistanceLengths.length := by
    rw [length_fixedDistanceLengths]
    exact h
  exact symbolAt?_codeOf allCoded_fixedDistanceLengths unambiguous_fixedDistanceLengths hs

end SourceLabel.Deflate
