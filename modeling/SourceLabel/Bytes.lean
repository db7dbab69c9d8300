/-!
# Byte sequences and fixed-width fields

A byte sequence is a list. Archives keep their numbers with the low byte first, class files with the
high byte first. Each writer below has a reader that takes the field off the front of a sequence and
returns what follows it.
-/
namespace SourceLabel

abbrev Bytes := List UInt8

namespace Bytes

/-! ## Low byte first -/

def le16 (n : UInt16) : Bytes :=
  [UInt8.ofNat n.toNat, UInt8.ofNat (n.toNat / 256)]

def le32 (n : UInt32) : Bytes :=
  [UInt8.ofNat n.toNat, UInt8.ofNat (n.toNat / 256), UInt8.ofNat (n.toNat / 65536),
    UInt8.ofNat (n.toNat / 16777216)]

def take16? : Bytes → Option (UInt16 × Bytes)
  | a :: b :: rest => some (UInt16.ofNat (a.toNat + 256 * b.toNat), rest)
  | _ => none

def take32? : Bytes → Option (UInt32 × Bytes)
  | a :: b :: c :: d :: rest =>
    some (UInt32.ofNat (a.toNat + 256 * b.toNat + 65536 * c.toNat + 16777216 * d.toNat), rest)
  | _ => none

/-- The 16-bit field that starts at `offset`, if all of it is there. -/
def u16At? (b : Bytes) (offset : Nat) : Option UInt16 :=
  (take16? (b.drop offset)).map Prod.fst

def u32At? (b : Bytes) (offset : Nat) : Option UInt32 :=
  (take32? (b.drop offset)).map Prod.fst

/-! ## High byte first -/

def be16 (n : UInt16) : Bytes :=
  [UInt8.ofNat (n.toNat / 256), UInt8.ofNat n.toNat]

def be32 (n : UInt32) : Bytes :=
  [UInt8.ofNat (n.toNat / 16777216), UInt8.ofNat (n.toNat / 65536), UInt8.ofNat (n.toNat / 256),
    UInt8.ofNat n.toNat]

def be64 (n : UInt64) : Bytes :=
  be32 (UInt32.ofNat (n.toNat / 4294967296)) ++ be32 (UInt32.ofNat n.toNat)

def ofBE16 (a b : UInt8) : UInt16 :=
  UInt16.ofNat (256 * a.toNat + b.toNat)

def ofBE32 (a b c d : UInt8) : UInt32 :=
  UInt32.ofNat (16777216 * a.toNat + 65536 * b.toNat + 256 * c.toNat + d.toNat)

def ofBE64 (hi lo : UInt32) : UInt64 :=
  UInt64.ofNat (4294967296 * hi.toNat + lo.toNat)

/-! ## Cutting -/

/-- The first `n` bytes and the rest, or nothing if there are fewer than `n`. -/
def takeExact? (n : Nat) (b : Bytes) : Option (Bytes × Bytes) :=
  go n [] b
where
  go : Nat → Bytes → Bytes → Option (Bytes × Bytes)
    | 0, front, rest => some (front.reverse, rest)
    | _ + 1, _, [] => none
    | n + 1, front, x :: rest => go n (x :: front) rest

theorem takeExact?_go_eq (n : Nat) (front b : Bytes) :
    takeExact?.go n front b =
      if n ≤ b.length then some (front.reverse ++ b.take n, b.drop n) else none := by
  induction n generalizing front b with
  | zero => simp [takeExact?.go]
  | succ n ih =>
    cases b with
    | nil => simp [takeExact?.go]
    | cons x rest => simp [takeExact?.go, ih]

theorem takeExact?_eq (n : Nat) (b : Bytes) :
    takeExact? n b = if n ≤ b.length then some (b.take n, b.drop n) else none := by
  simp [takeExact?, takeExact?_go_eq]

end Bytes
end SourceLabel
