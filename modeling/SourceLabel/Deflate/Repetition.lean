import SourceLabel.Deflate.Token
import Std.Data.HashMap

/-!
# Repetitions

Before data is coded it is cut into tokens. Where a copy may come from is looked up under the three bytes
it begins with. A place found that way is a proposal only: how far it really repeats is counted on the
data itself.
-/
namespace SourceLabel.Deflate.Token

/-- How many bytes from `a` on equal those from `b` on, at most `most`. -/
def agreement (data : Array UInt8) : (most a b : Nat) → Nat
  | 0, _, _ => 0
  | most + 1, a, b =>
    match data[a]?, data[b]? with
    | some x, some y => if x = y then agreement data most (a + 1) (b + 1) + 1 else 0
    | _, _ => 0

/-- A copy that may stand at a position: nothing yet if its length is zero. -/
structure Match where
  length : Nat := 0
  distance : Nat := 0
deriving DecidableEq, Repr

/-- The longest repetition at `pos` of what stands at one of the given places, the first of them if
several are equally long. -/
def longest (data : Array UInt8) (pos : Nat) (places : List Nat) : Match :=
  places.foldl (fun best place =>
    let length := if place < pos ∧ pos - place ≤ maxDistance then agreement data maxLength place pos
      else 0
    if best.length < length then ⟨length, pos - place⟩ else best) {}

/-- The last few places at which some three bytes were seen, under these bytes. -/
abbrev Index := Std.HashMap (UInt8 × UInt8 × UInt8) (List Nat)

/-- The three bytes at a position. -/
def keyAt? (data : Array UInt8) (pos : Nat) : Option (UInt8 × UInt8 × UInt8) := do
  return (← data[pos]?, ← data[pos + 1]?, ← data[pos + 2]?)

namespace Index

def places (index : Index) (data : Array UInt8) (pos : Nat) : List Nat :=
  match keyAt? data pos with
  | none => []
  | some key => index.getD key []

/-- Notes a position, and forgets all but `effort` places for its three bytes. -/
def note (index : Index) (data : Array UInt8) (effort pos : Nat) : Index :=
  match keyAt? data pos with
  | none => index
  | some key => index.insert key ((pos :: index.getD key []).take effort)

end Index

/-- The tokens of the last `left` bytes of the data, of which the first `skip` are already covered by a
copy; `acc` holds the tokens before them, the last one first. -/
def cut (data : Array UInt8) (effort : Nat) : (left skip : Nat) → Index → List Token → List Token
  | 0, _, _, acc => acc.reverse
  | left + 1, skip + 1, index, acc =>
    cut data effort left skip (index.note data effort (data.size - (left + 1))) acc
  | left + 1, 0, index, acc =>
    let pos := data.size - (left + 1)
    let found := longest data pos (index.places data pos)
    let index := index.note data effort pos
    if minLength ≤ found.length then
      cut data effort left (found.length - 1) index (.copy found.length found.distance :: acc)
    else
      match data[pos]? with
      | none => acc.reverse
      | some b => cut data effort left 0 index (.literal b :: acc)

/-- Cuts data into tokens, looking at up to `effort` places for each of them. -/
def ofBytes (data : Bytes) (effort : Nat) : List Token :=
  cut data.toArray effort data.length 0 ∅ []

end SourceLabel.Deflate.Token
