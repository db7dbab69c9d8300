import SourceLabel.Proofs.Deflate.Symbols
import SourceLabel.Proofs.Result

/-!
# What reading uses up

Reading never adds to what is left to be read, and a token uses up at least the bits of one code. So the number
of bits that are left bounds how many tokens and blocks can follow.
-/
namespace SourceLabel.Deflate

namespace Source

variable {s s' : Source} {width n : Nat} {b : Bool}

theorem next?_size (h : s.next? = some (b, s')) : s'.size + 1 = s.size := by
  obtain ⟨pending, bytes, taken⟩ := s
  cases pending with
  | cons bit pending =>
    obtain ⟨-, rfl⟩ := Prod.mk.inj (Option.some.inj h)
    simp only [size, List.length_cons]
    omega
  | nil =>
    cases bytes with
    | nil => cases h
    | cons x bytes =>
      have hbits : (bitsOfByte x).length = 8 := length_bitsOfNumber 8 x.toNat
      simp only [next?] at h
      split at h
      · cases h
      next bit pending hx =>
      obtain ⟨-, rfl⟩ := Prod.mk.inj (Option.some.inj h)
      rw [hx, List.length_cons] at hbits
      simp only [size, List.length_cons, List.length_nil]
      omega

theorem number?_size (h : s.number? width = some (n, s')) : s'.size + width = s.size := by
  induction width generalizing s n with
  | zero =>
    obtain ⟨-, rfl⟩ := Prod.mk.inj (Option.some.inj h)
    rfl
  | succ width ih =>
    rw [number?] at h
    split at h
    · cases h
    next b s₁ hnext =>
    split at h
    · cases h
    next m s₂ hrest =>
    obtain ⟨-, rfl⟩ := Prod.mk.inj (Option.some.inj h)
    have hone := next?_size hnext
    have hmore := ih hrest
    omega

end Source

/-! ## Codes -/

/-- A code is followed from the root before a symbol is reached. -/
def Tree.Branches : Tree → Prop
  | .node _ _ => True
  | .vacant | .leaf _ => False

theorem Tree.branches_treeOfLengths (lengths : List Nat) : (treeOfLengths lengths).Branches := by
  have hkeep : ∀ (codes : List (Nat × List Bool)) (t : Tree), t.Branches →
      (codes.foldl (fun t c => t.insert c.2 c.1) t).Branches := by
    intro codes
    induction codes with
    | nil => exact fun _ ht => ht
    | cons c codes ih =>
      intro t ht
      refine ih _ ?_
      obtain ⟨symbol, path⟩ := c
      cases t with
      | vacant => exact ht.elim
      | leaf _ => exact ht.elim
      | node zero one =>
        cases path with
        | nil => trivial
        | cons bit path => cases bit <;> trivial
  exact hkeep _ _ trivial

variable {s s' : Source} {symbol n : Nat}

theorem Tree.decode_size_le {t : Tree} (h : t.decode s = .ok (symbol, s')) : s'.size ≤ s.size := by
  induction t generalizing s with
  | vacant => cases h
  | leaf _ =>
    obtain ⟨-, rfl⟩ := Prod.mk.inj (Except.ok.inj h)
    exact Nat.le_refl _
  | node zero one ihZero ihOne =>
    rw [decode] at h
    split at h
    · cases h
    next b s₁ hnext =>
    have hone := Source.next?_size hnext
    have hrest : s'.size ≤ s₁.size := by
      cases b with
      | false => exact ihZero h
      | true => exact ihOne h
    omega

theorem Tree.decode_size_lt {t : Tree} (ht : t.Branches) (h : t.decode s = .ok (symbol, s')) : s'.size < s.size := by
  cases t with
  | vacant => exact ht.elim
  | leaf _ => exact ht.elim
  | node zero one =>
    rw [decode] at h
    split at h
    · cases h
    next b s₁ hnext =>
    have hone := Source.next?_size hnext
    have hrest : s'.size ≤ s₁.size := by
      cases b with
      | false => exact decode_size_le h
      | true => exact decode_size_le h
    omega

namespace Inflate

theorem spanNumber_size_le {spans : List Span} (h : spanNumber spans symbol s = .ok (n, s')) : s'.size ≤ s.size := by
  unfold spanNumber at h
  split at h
  · cases h
  split at h
  · cases h
  next hnumber =>
  obtain ⟨-, rfl⟩ := Prod.mk.inj (Except.ok.inj h)
  have hwidth := Source.number?_size hnumber
  omega

theorem nextToken_size_lt {literals distances : Tree} (hl : literals.Branches) {token : Option Token}
    (h : nextToken literals distances s = .ok (token, s')) : s'.size < s.size := by
  unfold nextToken at h
  split at h
  · cases h
  next symbol s₁ hsymbol =>
  have hcode := Tree.decode_size_lt hl hsymbol
  split at h
  · obtain ⟨-, rfl⟩ := Prod.mk.inj (Except.ok.inj h)
    exact hcode
  split at h
  · obtain ⟨-, rfl⟩ := Prod.mk.inj (Except.ok.inj h)
    exact hcode
  split at h
  · cases h
  next length s₂ hlength =>
  split at h
  · cases h
  next far s₃ hfar =>
  split at h
  · cases h
  next distance s₄ hdistance =>
  obtain ⟨-, rfl⟩ := Prod.mk.inj (Except.ok.inj h)
  have h₂ := spanNumber_size_le hlength
  have h₃ := Tree.decode_size_le hfar
  have h₄ := spanNumber_size_le hdistance
  omega

/-! ## Blocks with their own codes -/

theorem shortLengths_size_le {order : List Nat} {table table' : Array Nat}
    (h : shortLengths order table s = .ok (table', s')) : s'.size ≤ s.size := by
  induction order generalizing table s with
  | nil =>
    obtain ⟨-, rfl⟩ := Prod.mk.inj (Except.ok.inj h)
    exact Nat.le_refl _
  | cons symbol order ih =>
    rw [shortLengths] at h
    split at h
    · cases h
    next n s₁ hnumber =>
    have hwidth := Source.number?_size hnumber
    have hrest := ih h
    omega

theorem codeLengths_size_le {tree : Tree} {total fuel : Nat} {lengths : Array Nat} {result : List Nat}
    (h : codeLengths tree total fuel lengths s = .ok (result, s')) : s'.size ≤ s.size := by
  induction fuel generalizing lengths s with
  | zero => cases h
  | succ fuel ih =>
    rw [codeLengths] at h
    split at h
    · obtain ⟨-, rfl⟩ := Prod.mk.inj (Except.ok.inj h)
      exact Nat.le_refl _
    split at h
    · cases h
    next symbol s₁ hsymbol =>
    have hcode := Tree.decode_size_le hsymbol
    split at h
    · exact Nat.le_trans (ih h) hcode
    generalize (if symbol = 16 then (3, 2) else if symbol = 17 then (3, 3) else (11, 7)) = range at h
    generalize (if symbol = 16 then lengths.back? else some 0) = again at h
    dsimp only at h
    split at h
    · cases h
    next n s₂ hnumber =>
    have hwidth := Source.number?_size hnumber
    split at h
    · cases h
    split at h
    · cases h
    have hrest := ih h
    omega

theorem branches_of_literalTree {lengths : List Nat} {tree : Tree} (h : literalTree lengths = .ok tree) :
    tree.Branches := by
  unfold literalTree at h
  split at h
  · cases h
  split at h
  · obtain rfl := Except.ok.inj h
    exact Tree.branches_treeOfLengths lengths
  · cases h

theorem trees_size_le {literals distances : Tree} (h : trees s = .ok (literals, distances, s')) :
    s'.size ≤ s.size ∧ literals.Branches := by
  unfold trees at h
  split at h
  case h_2 => cases h
  next counts s₁ hcounts =>
  dsimp only at h
  split at h
  · cases h
  obtain ⟨⟨short, s₂⟩, hshort, h⟩ := Result.bind_eq_ok.mp h
  obtain ⟨tree, -, h⟩ := Result.bind_eq_ok.mp h
  obtain ⟨⟨lengths, s₃⟩, hlengths, h⟩ := Result.bind_eq_ok.mp h
  obtain ⟨literalTree, hliterals, h⟩ := Result.bind_eq_ok.mp h
  obtain ⟨distanceTree, -, h⟩ := Result.bind_eq_ok.mp h
  obtain ⟨rfl, hrest⟩ := Prod.mk.inj (Except.ok.inj h)
  obtain ⟨-, rfl⟩ := Prod.mk.inj hrest
  have h₁ := Source.number?_size hcounts
  have h₂ : s₂.size ≤ s₁.size := shortLengths_size_le hshort
  have h₃ : s₃.size ≤ s₂.size := codeLengths_size_le hlengths
  have hsize : s₃.size ≤ s.size := by omega
  exact ⟨hsize, branches_of_literalTree hliterals⟩

end Inflate
end SourceLabel.Deflate
