import SourceLabel.Text.Numeral

/-!
# Why a class file is refused

A fault says what is wrong; an error also says where in the bytes it was noticed.
-/
namespace SourceLabel

inductive ClassFault where
  /-- The bytes end inside the field `what`. -/
  | truncated (what : String) (need left : Nat)
  | badMagic (found : UInt32)
  | noPoolSlots
  | unknownTag (tag : UInt8)
  | wideInLastSlot
  /-- The class does not name itself through a Class constant. -/
  | unnamed (index : UInt16)
  | trailing (count : Nat)
  /-- The payload of the SourceFile attribute is no index. -/
  | labelLength (length : Nat)
  | noLabel (className : String)
  | notUtf8 (index : UInt16)
  | tooLong (length : Nat)
  | other (text : String)
deriving DecidableEq, Repr

def ClassFault.message : ClassFault → String
  | .truncated what need left => s!"truncated {what}: need {need} bytes, {left} left"
  | .badMagic found => "bad magic " ++ Text.hexWord found
  | .noPoolSlots => "constant pool count is 0"
  | .unknownTag tag => s!"unknown constant pool tag {tag}"
  | .wideInLastSlot => "wide constant occupies the last pool slot"
  | .unnamed index => s!"this_class #{index} is not a Class constant"
  | .trailing count => s!"{count} trailing bytes after class attributes"
  | .labelLength length => s!"SourceFile attribute has length {length}, expected 2"
  | .noLabel className => s!"{className} has no SourceFile attribute"
  | .notUtf8 index => s!"constant #{index} is not a Utf8 constant"
  | .tooLong length => s!"value of {length} bytes does not fit a Utf8 constant"
  | .other text => text

structure ClassError where
  offset : Nat
  fault : ClassFault
deriving DecidableEq, Repr

def ClassError.message (e : ClassError) : String :=
  s!"{e.fault.message} at offset {Text.hex e.offset}"

end SourceLabel
