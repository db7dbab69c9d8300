import SourceLabel.Deflate.Alphabet
import SourceLabel.Deflate.Portion
import SourceLabel.Deflate.Token

/-!
# Decoding a deflate stream

`inflate` decodes blocks up to the final one, but yields no more bytes than it was asked for. When it has
them all it reads on until one more would have to be written, or the data fetched so far ends. Data that
ends before that is truncated. Data that says something meaningless before that is corrupt, and nothing of it
is returned.
-/
namespace SourceLabel.Deflate

namespace Inflate

/-! ## How far decoding goes -/

/-- Why decoding halts before the end of the final block. -/
inductive Halt where
  /-- All bytes that were wanted are there, and another would follow. -/
  | full (out : Array UInt8)
  | fault (cause : Fault)
deriving DecidableEq, Repr

/-- What a fault comes to: an end of the data is none once all bytes are there. -/
def halt (limit : Nat) (out : Array UInt8) : Fault → Halt
  | .truncated => if limit ≤ out.size then .full out else .fault .truncated
  | .corrupt => .fault .corrupt

/-- What may still be read. Once all bytes are there, nothing more is fetched. -/
def allow (limit : Nat) (s : Source) (p : Portion) (out : Array UInt8) : Source :=
  if limit ≤ out.size then s.upTo p.fetched else s

/-! ## Symbols -/

/-- The number that a symbol and its extra bits stand for. -/
def spanNumber (spans : List Span) (symbol : Nat) (s : Source) : Except Fault (Nat × Source) :=
  match spans[symbol]? with
  | none => .error .corrupt
  | some span =>
    match s.number? span.extra with
    | none => .error .truncated
    | some (n, s) => .ok (span.base + n, s)

/-- The next token, or nothing at the end of the block. -/
def nextToken (literals distances : Tree) (s : Source) : Except Fault (Option Token × Source) :=
  match literals.decode s with
  | .error e => .error e
  | .ok (symbol, s) =>
    if symbol < endOfBlock then .ok (some (.literal (UInt8.ofNat symbol)), s)
    else if symbol = endOfBlock then .ok (none, s)
    else
      match spanNumber lengthSpans (symbol - endOfBlock - 1) s with
      | .error e => .error e
      | .ok (length, s) =>
        match distances.decode s with
        | .error e => .error e
        | .ok (symbol, s) =>
          match spanNumber distanceSpans symbol s with
          | .error e => .error e
          | .ok (distance, s) => .ok (some (.copy length distance), s)

/-- The tokens of one block. Each takes at least one bit, so the number of bits left bounds them. -/
def tokens (literals distances : Tree) (limit : Nat) :
    (fuel : Nat) → Source → Portion → Array UInt8 → Except Halt (Source × Portion × Array UInt8)
  | 0, _, _, out => .error (halt limit out .truncated)
  | fuel + 1, s, p, out =>
    match nextToken literals distances s with
    | .error e => .error (halt limit out e)
    | .ok (none, s) => .ok (s, p, out)
    | .ok (some token, s) =>
      if limit ≤ out.size then .error (.full out)
      else if !token.reaches out then .error (.fault .corrupt)
      else
        let p := p.read s.taken out.size
        let out := token.expand out
        if limit < out.size then .error (.full (out.take limit))
        else
          let p := p.turn s.taken (out.size - 1)
          tokens literals distances limit fuel (allow limit s p out) p out

/-! ## Stored blocks -/

/-- `length` bytes as they are. -/
def copyStored (limit : Nat) :
    (length : Nat) → Source → Portion → Array UInt8 → Except Halt (Source × Portion × Array UInt8)
  | 0, s, p, out => .ok (allow limit s p out, p, out)
  | length + 1, s, p, out =>
    if limit ≤ out.size then .error (.full out)
    else
      let p := p.turn s.taken out.size
      match s.byte? with
      | none => .error (.fault .truncated)
      | some (b, s) => copyStored limit length s (p.read s.taken out.size) (out.push b)

/-- A stored block: the length twice, the second time inverted, then the bytes. -/
def stored (limit : Nat) (s : Source) (p : Portion) (out : Array UInt8) :
    Except Halt (Source × Portion × Array UInt8) :=
  match s.word? with
  | none => .error (halt limit out .truncated)
  | some (word, s) =>
    let length := word.toNat % 65536
    if length + word.toNat / 65536 ≠ 65535 then .error (.fault .corrupt)
    else copyStored limit length s p out

/-! ## Blocks with their own codes -/

/-- Lengths of three bits each, for the symbols in `order`. -/
def shortLengths : List Nat → (table : Array Nat) → Source → Except Fault (Array Nat × Source)
  | [], table, s => .ok (table, s)
  | symbol :: order, table, s =>
    match s.number? 3 with
    | none => .error .truncated
    | some (n, s) => shortLengths order (table.setIfInBounds symbol n) s

/-- The tree of the code for code lengths. Without any code, every bit reads as the length zero. -/
def codeLengthTree (lengths : List Nat) : Except Fault Tree :=
  if lengths.all (· == 0) then .ok (.node (.leaf 0) (.leaf 0))
  else if IsComplete lengths then .ok (treeOfLengths lengths)
  else .error .corrupt

/-- The tree of literals and lengths, which must have a code for the end of a block. -/
def literalTree (lengths : List Nat) : Except Fault Tree :=
  if lengths[endOfBlock]?.getD 0 = 0 then .error .corrupt
  else if IsComplete lengths ∨ IsLonely lengths then .ok (treeOfLengths lengths)
  else .error .corrupt

def distanceTree (lengths : List Nat) : Except Fault Tree :=
  if lengths.all (· == 0) ∨ IsComplete lengths ∨ IsLonely lengths then .ok (treeOfLengths lengths)
  else .error .corrupt

/-- Code lengths up to `total` of them. Symbols 16 to 18 repeat: the length before, or zero. -/
def codeLengths (tree : Tree) (total : Nat) :
    (fuel : Nat) → Array Nat → Source → Except Fault (List Nat × Source)
  | 0, _, _ => .error .truncated
  | fuel + 1, lengths, s =>
    if total ≤ lengths.size then .ok (lengths.toList, s)
    else
      match tree.decode s with
      | .error e => .error e
      | .ok (symbol, s) =>
        if symbol < 16 then codeLengths tree total fuel (lengths.push symbol) s
        else
          let (base, extra) := if symbol = 16 then (3, 2) else if symbol = 17 then (3, 3) else (11, 7)
          match s.number? extra with
          | none => .error .truncated
          | some (n, s) =>
            let again := if symbol = 16 then lengths.back? else some 0
            match again with
            | none => .error .corrupt
            | some length =>
              if total < lengths.size + (base + n) then .error .corrupt
              else
                codeLengths tree total fuel (lengths ++ Array.replicate (base + n) length) s

/-- The two trees at the head of a block with its own codes. -/
def trees (s : Source) : Except Fault (Tree × Tree × Source) := do
  let some (counts, s) := s.number? 14 | throw .truncated
  let literals := counts % 32 + 257
  let distances := counts / 32 % 32 + 1
  let listed := counts / 1024 + 4
  if 286 < literals ∨ 30 < distances then throw .corrupt
  let (short, s) ← shortLengths (codeLengthOrder.take listed) (Array.replicate 19 0) s
  let tree ← codeLengthTree short.toList
  let total := literals + distances
  let (lengths, s) ← codeLengths tree total (total + 1) #[] s
  let literalTree ← literalTree (lengths.take literals)
  let distanceTree ← distanceTree (lengths.drop literals)
  return (literalTree, distanceTree, s)

/-! ## The stream -/

def block (limit bound : Nat) (s : Source) (p : Portion) (out : Array UInt8) :
    Except Halt (Bool × Source × Portion × Array UInt8) := do
  let some (header, s) := s.number? 3 | throw (halt limit out .truncated)
  let final := header % 2 == 1
  let (s, p, out) ←
    match header / 2 with
    | 0 => stored limit s p out
    | 1 =>
      tokens (treeOfLengths fixedLiteralLengths) (treeOfLengths fixedDistanceLengths) limit bound s p out
    | 2 => do
      let (literals, distances, s) ← (trees s).mapError (halt limit out)
      tokens literals distances limit bound s p out
    | _ => throw (.fault .corrupt)
  return (final, s, p, out)

/-- Blocks up to the final one. Each takes at least three bits. -/
def blocks (limit : Nat) : (fuel : Nat) → Source → Portion → Array UInt8 → Except Halt (Array UInt8)
  | 0, _, _, out => .error (halt limit out .truncated)
  | fuel + 1, s, p, out =>
    match block limit (fuel + 1) s p out with
    | .error e => .error e
    | .ok (final, s, p, out) => if final then .ok out else blocks limit fuel s p out

end Inflate

/-- At most `limit` bytes of what a deflate stream stands for. If none are wanted, none are read. -/
def inflate (raw : Bytes) (limit : Nat) : Except Fault Bytes :=
  if limit = 0 then .ok []
  else
    match Inflate.blocks limit (8 * raw.length + 1) { bytes := raw } {} #[] with
    | .ok out | .error (.full out) => .ok out.toList
    | .error (.fault cause) => .error cause

end SourceLabel.Deflate
