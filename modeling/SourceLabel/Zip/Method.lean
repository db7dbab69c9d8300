import SourceLabel.Deflate.Encode
import SourceLabel.Deflate.Inflate
import SourceLabel.Error

/-!
# How payloads are packed

A method is the number that a header gives. Two of them are known, and payloads of all others can only be
copied. Unpacking asks for one byte more than the header promises, so that a payload that is too long
shows itself without being decoded to its end.
-/
namespace SourceLabel.Zip

/-- A method is told by its id alone, so no third one has the id of `stored` or of `deflated`. -/
structure Method where
  id : UInt16
deriving DecidableEq, Repr

namespace Method

def stored : Method := ⟨0⟩

def deflated : Method := ⟨8⟩

def isSupported (m : Method) : Bool :=
  m = stored || m = deflated

/-- The `size` bytes that a payload stands for. -/
def unpack (m : Method) (raw : Bytes) (size : Nat) (entry : String) : Except Error Bytes := do
  let data ←
    if m = stored then pure raw
    else if m = deflated then
      match Deflate.inflate raw (size + 1) with
      | .ok data => pure data
      | .error cause => throw (.invalidFormat (.undecodable entry cause))
    else throw (.unsupportedMethod m.id entry)
  if data.length = size then return data
  else throw (.invalidFormat (.wrongSize entry data.length size))

/-- A payload that stands for the data. -/
def pack (m : Method) (data : Bytes) (level : Deflate.Level) (entry : String) : Except Error Bytes :=
  if m = stored then .ok data
  else if m = deflated then .ok (Deflate.deflate data level)
  else .error (.unsupportedMethod m.id entry)

end Method
end SourceLabel.Zip
