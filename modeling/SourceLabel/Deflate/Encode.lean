import SourceLabel.Deflate.Alphabet
import SourceLabel.Deflate.Repetition

/-!
# Coding a deflate stream

At level zero data is stored as it is, in blocks of up to 65535 bytes. At all other levels it is cut
into tokens and coded as one block with the fixed codes; a higher level looks harder for repetitions.
-/
namespace SourceLabel.Deflate

/-- How much work to spend on repetitions, from 0 for none to 9. -/
structure Level where
  effort : Nat
  effort_le : effort ≤ 9 := by omega
deriving DecidableEq, Repr

namespace Level

def standard : Level := ⟨6, by omega⟩

instance : Inhabited Level := ⟨standard⟩

def ofNat? (n : Nat) : Option Level :=
  if h : n ≤ 9 then some ⟨n, h⟩ else none

def clamp (n : Nat) : Level :=
  ⟨min n 9, Nat.min_le_right n 9⟩

end Level

/-! ## Stored blocks -/

def maxStored : Nat := 65535

def storedBlock (final : Bool) (b : Bytes) : Bytes :=
  UInt8.ofNat final.toNat :: (Bytes.le16 (UInt16.ofNat b.length) ++
    (Bytes.le16 (UInt16.ofNat (maxStored - b.length)) ++ b))

/-- `more` full blocks and a final one. -/
def storedBlocks : (more : Nat) → Bytes → Bytes
  | 0, b => storedBlock true b
  | more + 1, b => storedBlock false (b.take maxStored) ++ storedBlocks more (b.drop maxStored)

/-! ## The block with fixed codes -/

def codeTable (lengths : List Nat) : Array (List Bool) :=
  (canonicalCodes lengths).foldl (fun table c => table.setIfInBounds c.1 c.2)
    (Array.replicate lengths.length [])

def fixedLiteralCodes : Array (List Bool) := codeTable fixedLiteralLengths

def fixedDistanceCodes : Array (List Bool) := codeTable fixedDistanceLengths

def codeOf (codes : Array (List Bool)) (symbol : Nat) : List Bool :=
  codes[symbol]?.getD []

/-- A number by the last span that begins at or before it: the symbol of the span, then the extra bits.
The symbol of the first span is `first`. -/
def codeInSpans (codes : Array (List Bool)) (first : Nat) (spans : List Span) (n : Nat) : List Bool :=
  let i := (spans.takeWhile (·.base ≤ n)).length - 1
  match spans[i]? with
  | none => []
  | some span => codeOf codes (first + i) ++ bitsOfNumber span.extra (n - span.base)

def Token.bits : Token → List Bool
  | .literal b => codeOf fixedLiteralCodes b.toNat
  | .copy length distance =>
    codeInSpans fixedLiteralCodes (endOfBlock + 1) lengthSpans length ++
      codeInSpans fixedDistanceCodes 0 distanceSpans distance

/-- The bits of a final block with the fixed codes. -/
def fixedBlock (tokens : List Token) : List Bool :=
  true :: true :: false :: (tokens.flatMap Token.bits ++ codeOf fixedLiteralCodes endOfBlock)

/-- How many places to look at for each token. -/
def Level.places (level : Level) : Nat :=
  level.effort * level.effort

/-- A deflate stream that stands for the data. -/
def deflate (data : Bytes) (level : Level) : Bytes :=
  if level.effort = 0 then storedBlocks ((data.length - 1) / maxStored) data
  else pack (fixedBlock (Token.ofBytes data level.places))

end SourceLabel.Deflate
