/-!
# Numbers in messages

Offsets and checksums are written in hexadecimal with lower-case digits, all other numbers in decimal.
-/
namespace SourceLabel.Text

/-- Lower-case hexadecimal digits without a sign for the base. -/
def hexDigits (n : Nat) : String :=
  String.ofList (Nat.toDigits 16 n)

/-- A hexadecimal number as `0x1f`. -/
def hex (n : Nat) : String :=
  "0x" ++ hexDigits n

/-- A 32-bit word as `0x` and eight hexadecimal digits. -/
def hexWord (n : UInt32) : String :=
  let digits := Nat.toDigits 16 n.toNat
  "0x" ++ String.ofList (List.replicate (8 - digits.length) '0' ++ digits)

end SourceLabel.Text
