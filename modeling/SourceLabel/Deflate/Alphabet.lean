import SourceLabel.Deflate.PrefixCode

/-!
# The alphabets of a deflate stream

Literal and length symbols share one alphabet: 0 to 255 are literal bytes, 256 ends a block, and 257 to
285 are ranges of match lengths. Distances have an alphabet of thirty ranges. A symbol for a range is
followed by extra bits that say where in the range the number lies.
-/
namespace SourceLabel.Deflate

/-- The numbers `base` to `base + 2 ^ extra - 1`. -/
structure Span where
  base : Nat
  extra : Nat
deriving DecidableEq, Repr

def endOfBlock : Nat := 256

/-- The lengths that symbols 257 to 285 stand for. The last span is one length only, which the span
before it could also reach. -/
def lengthSpans : List Span :=
  [⟨3, 0⟩, ⟨4, 0⟩, ⟨5, 0⟩, ⟨6, 0⟩, ⟨7, 0⟩, ⟨8, 0⟩, ⟨9, 0⟩, ⟨10, 0⟩, ⟨11, 1⟩, ⟨13, 1⟩, ⟨15, 1⟩,
    ⟨17, 1⟩, ⟨19, 2⟩, ⟨23, 2⟩, ⟨27, 2⟩, ⟨31, 2⟩, ⟨35, 3⟩, ⟨43, 3⟩, ⟨51, 3⟩, ⟨59, 3⟩, ⟨67, 4⟩,
    ⟨83, 4⟩, ⟨99, 4⟩, ⟨115, 4⟩, ⟨131, 5⟩, ⟨163, 5⟩, ⟨195, 5⟩, ⟨227, 5⟩, ⟨258, 0⟩]

def distanceSpans : List Span :=
  [⟨1, 0⟩, ⟨2, 0⟩, ⟨3, 0⟩, ⟨4, 0⟩, ⟨5, 1⟩, ⟨7, 1⟩, ⟨9, 2⟩, ⟨13, 2⟩, ⟨17, 3⟩, ⟨25, 3⟩, ⟨33, 4⟩,
    ⟨49, 4⟩, ⟨65, 5⟩, ⟨97, 5⟩, ⟨129, 6⟩, ⟨193, 6⟩, ⟨257, 7⟩, ⟨385, 7⟩, ⟨513, 8⟩, ⟨769, 8⟩,
    ⟨1025, 9⟩, ⟨1537, 9⟩, ⟨2049, 10⟩, ⟨3073, 10⟩, ⟨4097, 11⟩, ⟨6145, 11⟩, ⟨8193, 12⟩, ⟨12289, 12⟩,
    ⟨16385, 13⟩, ⟨24577, 13⟩]

/-- Lengths of the fixed code for literals and lengths. Its last two symbols stand for nothing. -/
def fixedLiteralLengths : List Nat :=
  List.replicate 144 8 ++ List.replicate 112 9 ++ List.replicate 24 7 ++ List.replicate 8 8

/-- Lengths of the fixed code for distances. Its last two symbols stand for nothing. -/
def fixedDistanceLengths : List Nat :=
  List.replicate 32 5

/-- The order in which a block with its own codes lists the lengths of the code for code lengths. -/
def codeLengthOrder : List Nat :=
  [16, 17, 18, 0, 8, 7, 9, 6, 10, 5, 11, 4, 12, 3, 13, 2, 14, 1, 15]

end SourceLabel.Deflate
