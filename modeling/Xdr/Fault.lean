import Xdr.Value

/-!
# Faults of encoding and decoding

Why bytes are no value of a type, why a value has no bytes, and what else can go wrong with values
that were built without checks.
-/

namespace Xdr

/-- Why bytes cannot be decoded, with the offset of the offending bytes. -/
inductive DecodeFault
  | insufficientBytes (needed available offset : Int)
  /-- No arm has the discriminant, which is `shown` in the message. -/
  | unknownDiscriminant (union : String) (value : Int) (shown : String) (offset : Int)
  | unknownEnumValue (enum : String) (value offset : Int)
  | invalidLength (length bound offset : Int)
  | invalidBoolean (value offset : Int)
  | invalidOptionalFlag (value offset : Int)
  | nonUtf8 (reason : Wire.Utf8Reason) (offset : Int)
  | invalidPadding (offset : Int)
deriving DecidableEq

namespace DecodeFault

def offset : DecodeFault → Int
  | insufficientBytes _ _ o => o
  | unknownDiscriminant _ _ _ o => o
  | unknownEnumValue _ _ o => o
  | invalidLength _ _ o => o
  | invalidBoolean _ o => o
  | invalidOptionalFlag _ o => o
  | nonUtf8 _ o => o
  | invalidPadding o => o

def description : DecodeFault → String
  | insufficientBytes needed available _ => s!"need {needed} bytes, {available} available"
  | unknownDiscriminant union _ shown _ => s!"union '{union}' has no arm for discriminant {shown}"
  | unknownEnumValue enum value _ => s!"{value} is not a value of enum '{enum}'"
  | invalidLength length bound _ => s!"length {length} exceeds the declared bound {bound}"
  | invalidBoolean value _ => s!"boolean must be 0 or 1, got {value}"
  | invalidOptionalFlag value _ => s!"optional presence flag must be 0 or 1, got {value}"
  | nonUtf8 reason _ => s!"string is not valid UTF-8: {reason.message}"
  | invalidPadding _ => "non-zero padding bytes"

def message (f : DecodeFault) : String := s!"{f.description} (at byte {f.offset})"

end DecodeFault

inductive FloatReason
  | notANumber
  | tooLarge
  | integerTooLarge
deriving DecidableEq

def FloatReason.message : FloatReason → String
  | notANumber => "required argument is not a float"
  | tooLarge => "float too large to pack with f format"
  | integerTooLarge => "int too large to convert"

/-- Why a value cannot be encoded. Values are given by the texts that show them. -/
inductive EncodeFault
  | notAnInteger (target : Builtin) (typeName : String)
  | outOfRange (target : Builtin) (value : Int)
  | notAFloat (target : Builtin) (shown : String) (reason : FloatReason)
  | notABool (shown : String)
  | notAMember (enum shown : String)
  | tooLong (length : String) (bound : Int)
  | opaqueLength (expected : String) (found : Nat)
  | notAString (typeName : String)
  | arrayLength (expected : Int) (found : Nat)
  | wrongArm (shown : String) (arm : ClassKey)
  | explicitArm (shown : String) (arm : ClassKey)
deriving DecidableEq

def EncodeFault.message : EncodeFault → String
  | notAnInteger target typeName => s!"{target.spelling} expects an int, got {typeName}"
  | outOfRange target value => s!"{value} is out of range for {target.spelling}"
  | notAFloat target shown reason =>
    s!"cannot encode {shown} as {target.spelling}: {reason.message}"
  | notABool shown => s!"bool expects True or False, got {shown}"
  | notAMember enum shown => s!"{shown} is not a value of enum '{enum}'"
  | tooLong length bound => s!"length {length} exceeds the declared bound {bound}"
  | opaqueLength expected found => s!"fixed-length opaque expects {expected} bytes, got {found}"
  | notAString typeName => s!"string expects str, got {typeName}"
  | arrayLength expected found => s!"fixed-length array expects {expected} elements, got {found}"
  | wrongArm shown arm => s!"discriminant {shown} does not select {arm.qualifiedName}"
  | explicitArm shown arm =>
    s!"discriminant {shown} belongs to an explicit arm, not {arm.qualifiedName}"

inductive Fault
  | decode (f : DecodeFault)
  | encode (f : EncodeFault)
  /-- An operation does not apply to a value, or a constructor not to its arguments. -/
  | notApplicable
  | noAttribute
  /-- An operation applies to values of this type, but not to this one. -/
  | badValue
  | unbound
  | unimplemented
  /-- A number does not fit the bytes that it is put into or taken from. -/
  | badFormat
  /-- A value in the body of a class cannot be told the name that it has there. -/
  | untold
  | tooDeep
deriving DecidableEq

end Xdr
