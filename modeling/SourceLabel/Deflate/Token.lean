import SourceLabel.Bytes

/-!
# Tokens

A token is a literal byte, or a copy of bytes that stand some way back. Compressed data is a sequence of
tokens; each is expanded after the bytes that the ones before it stand for.
-/
namespace SourceLabel.Deflate

inductive Token where
  | literal (b : UInt8)
  | copy (length distance : Nat)
deriving DecidableEq, Repr

namespace Token

def minLength : Nat := 3
def maxLength : Nat := 258
def maxDistance : Nat := 32768

/-- Repeats `length` bytes from `distance` bytes back. They may run into the bytes just written. -/
def copyBack (distance : Nat) : (length : Nat) → Array UInt8 → Array UInt8
  | 0, out => out
  | length + 1, out =>
    match out[out.size - distance]? with
    | none => out
    | some b => copyBack distance length (out.push b)

/-- Does a copy begin among the bytes that are there? -/
def reaches (out : Array UInt8) : Token → Bool
  | .literal _ => true
  | .copy _ distance => distance ≤ out.size

def expand (out : Array UInt8) : Token → Array UInt8
  | .literal b => out.push b
  | .copy length distance => copyBack distance length out

/-- The bytes that tokens stand for. -/
def toBytes (tokens : List Token) : Bytes :=
  (tokens.foldl expand #[]).toList

end Token
end SourceLabel.Deflate
