import SourceLabel.Bytes

/-!
# Bits of a byte sequence

Deflate fills each byte from its low end. A source is what is left to read: the bits of the byte under
way and the bytes after it. A sink packs bits into bytes.
-/
namespace SourceLabel.Deflate

/-- The number whose binary digits are `bits`, low end first. -/
def numberOfBits : List Bool → Nat
  | [] => 0
  | b :: bits => b.toNat + 2 * numberOfBits bits

/-- The `width` low bits of a number, low end first. -/
def bitsOfNumber : (width : Nat) → Nat → List Bool
  | 0, _ => []
  | width + 1, n => (n % 2 == 1) :: bitsOfNumber width (n / 2)

def bitsOfByte (b : UInt8) : List Bool :=
  bitsOfNumber 8 b.toNat

/-- Bits still to be read. -/
structure Source where
  pending : List Bool := []
  bytes : Bytes
  /-- How many bytes stood before `bytes`. -/
  taken : Nat := 0
deriving DecidableEq, Repr

namespace Source

/-- Every bit still to be read, in order. -/
def toList (s : Source) : List Bool :=
  s.pending ++ s.bytes.flatMap bitsOfByte

def size (s : Source) : Nat :=
  s.pending.length + 8 * s.bytes.length

def next? (s : Source) : Option (Bool × Source) :=
  match s.pending with
  | b :: pending => some (b, { s with pending })
  | [] =>
    match s.bytes with
    | [] => none
    | x :: bytes =>
      match bitsOfByte x with
      | [] => none
      | b :: pending => some (b, ⟨pending, bytes, s.taken + 1⟩)

def number? : (width : Nat) → Source → Option (Nat × Source)
  | 0, s => some (0, s)
  | width + 1, s =>
    match s.next? with
    | none => none
    | some (b, s) =>
      match number? width s with
      | none => none
      | some (n, s) => some (b.toNat + 2 * n, s)

/-- The byte after the one under way. -/
def byte? (s : Source) : Option (UInt8 × Source) :=
  match s.bytes with
  | [] => none
  | b :: bytes => some (b, ⟨[], bytes, s.taken + 1⟩)

/-- The four bytes after the one under way, low byte first. -/
def word? (s : Source) : Option (UInt32 × Source) :=
  match Bytes.take32? s.bytes with
  | none => none
  | some (word, bytes) => some (word, ⟨[], bytes, s.taken + 4⟩)

/-- What lies before the first `stop` bytes end. -/
def upTo (s : Source) (stop : Nat) : Source :=
  { s with bytes := s.bytes.take (stop - s.taken) }

end Source

/-- Packs bits into bytes; the last byte is filled up with zeros. -/
def pack (bits : List Bool) : Bytes :=
  go [] bits
where
  go (acc : Bytes) : List Bool → Bytes
    | a :: b :: c :: d :: e :: f :: g :: h :: rest =>
      go (UInt8.ofNat (numberOfBits [a, b, c, d, e, f, g, h]) :: acc) rest
    | [] => acc.reverse
    | rest => (UInt8.ofNat (numberOfBits rest) :: acc).reverse

end SourceLabel.Deflate
