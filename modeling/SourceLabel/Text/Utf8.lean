import SourceLabel.Bytes

/-!
# Text from bytes that may not be text

Well-formed UTF-8 is decoded as it stands. Where the input stops being the beginning of a well-formed
sequence, the longest part that could still have begun one becomes a single U+FFFD, and decoding goes
on with the byte that broke it.
-/
namespace SourceLabel.Text

/-- Stands for whatever could not be decoded. -/
def replacement : Char := '\uFFFD'

/-- The UTF-8 bytes of a text. -/
def utf8 (s : String) : Bytes :=
  s.toList.flatMap String.utf8EncodeChar

namespace Utf8

/-- What a decoder holds between two bytes: nothing, or the beginning of a sequence with the bits read
so far, the range its next byte has to lie in, and how many more follow that one. -/
inductive Held where
  | none
  | part (bits : Nat) (low high : UInt8) (more : Nat)
deriving DecidableEq, Repr

/-- Decoded characters, the last one first, and the sequence under way. -/
structure State where
  chars : List Char := []
  held : Held := .none
deriving DecidableEq, Repr

namespace State

def emit (s : State) (c : Char) : State :=
  ⟨c :: s.chars, .none⟩

/-- A byte where a sequence may begin. -/
def first (s : State) (b : UInt8) : State :=
  let await (bits : Nat) (low high : UInt8) (more : Nat) : State :=
    { s with held := .part bits low high more }
  if b < 0x80 then s.emit (Char.ofNat b.toNat)
  else if b < 0xC2 then s.emit replacement
  else if b < 0xE0 then await (b.toNat - 0xC0) 0x80 0xBF 0
  else if b = 0xE0 then await 0 0xA0 0xBF 1
  else if b = 0xED then await 0xD 0x80 0x9F 1
  else if b < 0xF0 then await (b.toNat - 0xE0) 0x80 0xBF 1
  else if b = 0xF0 then await 0 0x90 0xBF 2
  else if b < 0xF4 then await (b.toNat - 0xF0) 0x80 0xBF 2
  else if b = 0xF4 then await 4 0x80 0x8F 2
  else s.emit replacement

/-- One byte. A byte that cannot go on with the sequence under way ends it and is read again as a first
byte. -/
def step (s : State) (b : UInt8) : State :=
  match s.held with
  | .none => s.first b
  | .part bits low high more =>
    if low ≤ b ∧ b ≤ high then
      let bits := 64 * bits + (b.toNat - 0x80)
      match more with
      | 0 => s.emit (Char.ofNat bits)
      | more + 1 => { s with held := .part bits 0x80 0xBF more }
    else (s.emit replacement).first b

/-- The text read so far; a sequence still under way is cut short. -/
def finish (s : State) : List Char :=
  match s.held with
  | .none => s.chars.reverse
  | .part .. => (replacement :: s.chars).reverse

end State
end Utf8

/-- Decodes UTF-8, with U+FFFD for what is malformed. -/
def ofUtf8Lossy (b : Bytes) : String :=
  String.ofList (b.foldl Utf8.State.step {}).finish

end SourceLabel.Text
