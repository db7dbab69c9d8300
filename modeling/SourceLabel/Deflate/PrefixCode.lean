import SourceLabel.Deflate.Bits

/-!
# Prefix codes given by code lengths

A code is a binary tree with symbols at its leaves. A list of lengths fixes a code: shorter codes come
first, codes of one length follow the order of their symbols, and each next code is the successor of
the one before it, so codes fill the tree from the left. Lengths whose codes would not fit into a tree,
or would leave room in it, are refused.
-/
namespace SourceLabel.Deflate

inductive Tree where
  /-- No code goes this way. -/
  | vacant
  | leaf (symbol : Nat)
  | node (zero one : Tree)
deriving DecidableEq, Repr

namespace Tree

/-- Puts a symbol at the end of a path; what was in the way stays. -/
def insert : Tree → List Bool → Nat → Tree
  | .vacant, [], symbol => .leaf symbol
  | .vacant, false :: path, symbol => .node (insert .vacant path symbol) .vacant
  | .vacant, true :: path, symbol => .node .vacant (insert .vacant path symbol)
  | .node zero one, false :: path, symbol => .node (insert zero path symbol) one
  | .node zero one, true :: path, symbol => .node zero (insert one path symbol)
  | t, _, _ => t

end Tree

/-- The number as `width` bits, high end first. -/
def pathOfNumber (width n : Nat) : List Bool :=
  (bitsOfNumber width n).reverse

/-- The longest code any alphabet may have. -/
def maxLength : Nat := 15

/-- The symbols whose code has the given length, in order. -/
def symbolsOfLength (lengths : List Nat) (length : Nat) : List Nat :=
  (lengths.zipIdx.filter fun p => p.1 == length).map Prod.snd

/-- The codes of one length, counted up from `first`, and the number after the last of them. -/
def numberCodes (length : Nat) (first : Nat) : List Nat → List (Nat × List Bool) × Nat
  | [] => ([], first)
  | symbol :: symbols =>
    let (codes, after) := numberCodes length (first + 1) symbols
    ((symbol, pathOfNumber length first) :: codes, after)

/-- Every symbol that has a code, with its code: lengths `length`, `length + 1` and so on, `left` of
them, the first code being `first`. -/
def codesFrom (lengths : List Nat) : (left length first : Nat) → List (Nat × List Bool)
  | 0, _, _ => []
  | left + 1, length, first =>
    let (codes, after) := numberCodes length first (symbolsOfLength lengths length)
    codes ++ codesFrom lengths left (length + 1) (2 * after)

/-- The canonical code of a list of lengths; a length of zero means that a symbol has no code. -/
def canonicalCodes (lengths : List Nat) : List (Nat × List Bool) :=
  codesFrom lengths maxLength 1 0

/-- The number of leaves of a full tree of some depth. -/
def leaves (depth : Nat) : Nat :=
  Nat.pow 2 depth

/-- How many of the leaves of a tree of depth `maxLength` lie under a code. -/
def filled : (lengths : List Nat) → Nat
  | [] => 0
  | 0 :: lengths => filled lengths
  | n :: lengths => leaves (maxLength - n) + filled lengths

/-- The tree of the canonical code. Its root is a node even if no symbol has a code. -/
def treeOfLengths (lengths : List Nat) : Tree :=
  (canonicalCodes lengths).foldl (fun t c => t.insert c.2 c.1) (.node .vacant .vacant)

/-- Codes that fill the tree, neither more nor less. -/
def IsComplete (lengths : List Nat) : Prop :=
  filled lengths = leaves maxLength

instance (lengths : List Nat) : Decidable (IsComplete lengths) :=
  inferInstanceAs (Decidable (_ = _))

/-- The one way in which a code may leave room: a single code of one bit. -/
def IsLonely (lengths : List Nat) : Prop :=
  lengths.filter (· ≠ 0) = [1]

instance (lengths : List Nat) : Decidable (IsLonely lengths) :=
  inferInstanceAs (Decidable (_ = _))

/-- Why data is no deflate stream: it ends too early, or says something that has no meaning. -/
inductive Fault where
  | truncated
  | corrupt
deriving DecidableEq, Repr

/-- Follows bits to a leaf. -/
def Tree.decode : Tree → Source → Except Fault (Nat × Source)
  | .vacant, _ => .error .corrupt
  | .leaf symbol, s => .ok (symbol, s)
  | .node zero one, s =>
    match s.next? with
    | none => .error .truncated
    | some (b, s) => if b then decode one s else decode zero s

end SourceLabel.Deflate
