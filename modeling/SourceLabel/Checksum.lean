import SourceLabel.Bytes

/-!
# The checksum of entry contents

CRC-32 with the reflected polynomial `EDB88320`, one bit at a time. The register starts with all bits
set and is inverted at the end. A running checksum is a register, so that data may come in parts.
-/
namespace SourceLabel

/-- A checksum under way. -/
structure Checksum where
  register : UInt32 := 0xFFFFFFFF
deriving DecidableEq, Repr

namespace Checksum

/-- Divides out one bit: shift right, and subtract the polynomial if a bit was lost. -/
def shift (r : UInt32) : UInt32 :=
  if r &&& 1 = 1 then (r >>> 1) ^^^ 0xEDB88320 else r >>> 1

def shift8 (r : UInt32) : UInt32 :=
  shift (shift (shift (shift (shift (shift (shift (shift r)))))))

def push (c : Checksum) (b : UInt8) : Checksum :=
  ⟨shift8 (c.register ^^^ b.toUInt32)⟩

def update (c : Checksum) (data : Bytes) : Checksum :=
  data.foldl push c

/-- The checksum of everything seen so far. -/
def value (c : Checksum) : UInt32 :=
  c.register ^^^ 0xFFFFFFFF

def of (data : Bytes) : UInt32 :=
  (({} : Checksum).update data).value

theorem update_append (c : Checksum) (a b : Bytes) :
    c.update (a ++ b) = (c.update a).update b := by
  simp [update]

end Checksum
end SourceLabel
