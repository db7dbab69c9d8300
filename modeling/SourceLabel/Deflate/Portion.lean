import SourceLabel.Deflate.Bits

/-!
# Portions

Data is fetched in windows, and decoded bytes are handed over in portions. A portion ends when it is full. If
a window ends inside it, what is there is handed over at once and the rest follows, so the portion comes in
parts. After a portion in one part the next has twice the room, after one in several parts as much. If a
portion begins when all that was fetched has been read, a window is fetched at once. The bytes do not depend
on any of this, but how much data is at hand at a given moment does.
-/
namespace SourceLabel.Deflate

/-- The portion under way. -/
structure Portion where
  /-- How many bytes there were when it began. -/
  start : Nat := 0
  room : Nat := 8192
  /-- No window has ended inside it. -/
  inOnePart : Bool := true
  /-- How much data has been fetched. -/
  fetched : Nat := 0
deriving DecidableEq, Repr

namespace Portion

/-- The size of a window. -/
def window : Nat := 32768

def stop (p : Portion) : Nat :=
  p.start + p.room

/-- The portion after a full one. -/
def next (p : Portion) : Portion :=
  { p with start := p.stop, room := if p.inOnePart then 2 * p.room else p.room, inOnePart := true }

/-- Fetches windows until data up to `taken` is there. -/
def fetch (p : Portion) (taken : Nat) : Portion :=
  { p with fetched := (taken + window - 1) / window * window }

/-- Reads data up to `taken` when there are `size` bytes. -/
def read (p : Portion) (taken size : Nat) : Portion :=
  if taken ≤ p.fetched then p
  else if p.stop ≤ size then p.next.fetch taken
  else { p.fetch taken with inOnePart := p.inOnePart && size == p.start }

/-- Goes on when there are `size` bytes and data has been read up to `taken`. -/
def turn (p : Portion) (taken size : Nat) : Portion :=
  if p.stop ≤ size then
    if p.fetched = taken then p.next.fetch (taken + 1) else p.next
  else p

end Portion
end SourceLabel.Deflate
