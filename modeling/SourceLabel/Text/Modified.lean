import SourceLabel.Text.Utf8

/-!
# Modified UTF-8

The encoding of strings inside class files. It writes a text as 16-bit units: U+0000 takes the two
bytes `C0 80`, and a character beyond U+FFFF takes a surrogate pair with three bytes for each half.

Decoding has two layers. `scan` cuts the bytes into units and defects, `assemble` joins surrogate pairs
and names the surrogates that stand alone. A strict decoder reports the first defect; a lossy one puts
U+FFFD in its place.
-/
namespace SourceLabel.Text.Modified

/-! ## Encoding -/

/-- The 16-bit units of a character. -/
def units (c : Char) : List Nat :=
  let n := c.toNat
  if n < 0x10000 then [n]
  else [0xD800 + (n - 0x10000) / 0x400, 0xDC00 + (n - 0x10000) % 0x400]

/-- The bytes of one unit: one for U+0001 to U+007F, two up to U+07FF and for zero, else three. -/
def encodeUnit (u : Nat) : Bytes :=
  if 0 < u ∧ u < 0x80 then [UInt8.ofNat u]
  else if u < 0x800 then [UInt8.ofNat (0xC0 + u / 64), UInt8.ofNat (0x80 + u % 64)]
  else [UInt8.ofNat (0xE0 + u / 4096), UInt8.ofNat (0x80 + u / 64 % 64), UInt8.ofNat (0x80 + u % 64)]

def encode (s : String) : Bytes :=
  (s.toList.flatMap units).flatMap encodeUnit

/-! ## Units -/

/-- What the bytes of an encoded text are cut into. -/
inductive Item where
  /-- A 16-bit unit whose first byte stands at `start`. -/
  | unit (start : Nat) (value : Nat)
  /-- The byte at `start` begins no unit; the byte at `cause`, or the end of the input there, is why. -/
  | defect (start cause : Nat)
deriving DecidableEq, Repr

/-- The unit under way: its first byte, and for a unit of three bytes its second. -/
inductive Held where
  | none
  | lead (b : UInt8)
  | leadMid (b m : UInt8)
deriving DecidableEq, Repr

/-- `offset` counts the bytes read; `items` holds what they were cut into, the last item first. -/
structure Scan where
  offset : Nat := 0
  held : Held := .none
  items : List Item := []
deriving DecidableEq, Repr

namespace Scan

/-- The items of the unit under way when the byte at `s.offset` does not go on with it. The second byte
of a unit of three begins no unit itself. -/
def broken (s : Scan) : List Item :=
  match s.held with
  | .none => s.items
  | .lead _ => .defect (s.offset - 1) s.offset :: s.items
  | .leadMid .. =>
    .defect (s.offset - 1) (s.offset - 1) :: .defect (s.offset - 2) s.offset :: s.items

/-- A byte where a unit may begin. -/
def first (s : Scan) (b : UInt8) : Scan :=
  if 0 < b ∧ b < 0x80 then
    ⟨s.offset + 1, .none, .unit s.offset b.toNat :: s.items⟩
  else if 0xC0 ≤ b ∧ b < 0xF0 then ⟨s.offset + 1, .lead b, s.items⟩
  else ⟨s.offset + 1, .none, .defect s.offset s.offset :: s.items⟩

def isContinuation (b : UInt8) : Bool :=
  0x80 ≤ b && b < 0xC0

def step (s : Scan) (b : UInt8) : Scan :=
  if isContinuation b then
    match s.held with
    | .none => s.first b
    | .lead l =>
      if l < 0xE0 then
        ⟨s.offset + 1, .none,
          .unit (s.offset - 1) (64 * (l.toNat - 0xC0) + (b.toNat - 0x80)) :: s.items⟩
      else ⟨s.offset + 1, .leadMid l b, s.items⟩
    | .leadMid l m =>
      ⟨s.offset + 1, .none,
        .unit (s.offset - 2)
          (4096 * (l.toNat - 0xE0) + 64 * (m.toNat - 0x80) + (b.toNat - 0x80)) :: s.items⟩
  else ({ s with held := .none, items := s.broken } : Scan).first b

end Scan

/-- Cuts bytes into units and defects, in order. -/
def scan (b : Bytes) : List Item :=
  (b.foldl Scan.step {}).broken.reverse

/-! ## Characters -/

/-- What units are joined into: characters, and surrogates without a partner. -/
inductive Glyph where
  | char (c : Char)
  | lone (start : Nat)
deriving DecidableEq, Repr

def isHigh (u : Nat) : Bool := 0xD800 ≤ u && u < 0xDC00

def isLow (u : Nat) : Bool := 0xDC00 ≤ u && u < 0xE000

/-- `high` is a high surrogate that still waits for its partner, with its offset. -/
structure Join where
  high : Option (Nat × Nat) := none
  glyphs : List Glyph := []
deriving DecidableEq, Repr

namespace Join

def first (glyphs : List Glyph) (start u : Nat) : Join :=
  if isHigh u then ⟨some (start, u), glyphs⟩
  else if isLow u then ⟨none, .lone start :: glyphs⟩
  else ⟨none, .char (Char.ofNat u) :: glyphs⟩

def step (j : Join) : Nat × Nat → Join
  | (start, u) =>
    match j.high with
    | none => first j.glyphs start u
    | some (at_, h) =>
      if isLow u then
        ⟨none, .char (Char.ofNat (0x10000 + 0x400 * (h - 0xD800) + (u - 0xDC00))) :: j.glyphs⟩
      else first (.lone at_ :: j.glyphs) start u

def finish (j : Join) : List Glyph :=
  match j.high with
  | none => j.glyphs.reverse
  | some (start, _) => (.lone start :: j.glyphs).reverse

end Join

/-- Joins surrogate pairs. -/
def assemble (us : List (Nat × Nat)) : List Glyph :=
  (us.foldl Join.step {}).finish

/-! ## Decoding -/

/-- Where the bytes stop being modified UTF-8, or hold a surrogate that no text can hold. -/
structure Defect where
  offset : Nat
deriving DecidableEq, Repr

def Defect.message (d : Defect) : String :=
  s!"invalid modified UTF-8 at byte {d.offset}"

/-- The units of the items, or the cause of the first defect. -/
def strictUnits : List Item → Except Defect (List (Nat × Nat)) :=
  go []
where
  go (acc : List (Nat × Nat)) : List Item → Except Defect (List (Nat × Nat))
    | [] => .ok acc.reverse
    | .unit start u :: rest => go ((start, u) :: acc) rest
    | .defect _ cause :: _ => .error ⟨cause⟩

/-- The characters of the glyphs, or the first lone surrogate. -/
def strictChars : List Glyph → Except Defect (List Char) :=
  go []
where
  go (acc : List Char) : List Glyph → Except Defect (List Char)
    | [] => .ok acc.reverse
    | .char c :: rest => go (c :: acc) rest
    | .lone start :: _ => .error ⟨start⟩

/-- Decodes bytes that are modified UTF-8 throughout and pair every surrogate. -/
def decode (b : Bytes) : Except Defect String := do
  let us ← strictUnits (scan b)
  let cs ← strictChars (assemble us)
  return String.ofList cs

/-- A defect reads as the unit U+FFFD. -/
def Item.lossyUnit : Item → Nat × Nat
  | .unit start u => (start, u)
  | .defect start _ => (start, 0xFFFD)

/-- A lone surrogate reads as U+FFFD. -/
def Glyph.lossyChar : Glyph → Char
  | .char c => c
  | .lone _ => replacement

/-- Decodes any bytes, with U+FFFD for every defect and every lone surrogate. -/
def decodeLossy (b : Bytes) : String :=
  String.ofList ((assemble ((scan b).map Item.lossyUnit)).map Glyph.lossyChar)

end SourceLabel.Text.Modified
