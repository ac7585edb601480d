/-!
# Builtin types, arities and ranges

The types that the language itself knows, the ways in which a declaration can repeat a type, and
the numbers that belong to them: integer ranges, wire sizes, and the unit of four bytes.
-/

namespace Xdr

inductive Builtin
  | int | uint | hyper | uhyper | float | double | quadruple | bool | opaqueBytes | string | void
deriving DecidableEq, Inhabited

namespace Builtin

def spelling : Builtin → String
  | int => "int"
  | uint => "unsigned int"
  | hyper => "hyper"
  | uhyper => "unsigned hyper"
  | float => "float"
  | double => "double"
  | quadruple => "quadruple"
  | bool => "bool"
  | opaqueBytes => "opaque"
  | string => "string"
  | void => "void"

def range? : Builtin → Option (Int × Int)
  | int => some (-2147483648, 2147483647)
  | uint => some (0, 4294967295)
  | hyper => some (-9223372036854775808, 9223372036854775807)
  | uhyper => some (0, 18446744073709551615)
  | bool => some (0, 1)
  | _ => none

def size? : Builtin → Option Nat
  | int => some 4
  | uint => some 4
  | bool => some 4
  | float => some 4
  | hyper => some 8
  | uhyper => some 8
  | double => some 8
  | void => some 0
  | _ => none

def isBytes : Builtin → Bool
  | opaqueBytes => true
  | string => true
  | _ => false

def ofAlias? (name : String) : Option Builtin :=
  if name = "int32_t" then some int
  else if name = "uint32_t" then some uint
  else if name = "int64_t" then some hyper
  else if name = "uint64_t" then some uhyper
  else none

end Builtin

/-- How often a declaration holds its type: once, a fixed number of times, up to a bound, or at
most once behind a presence flag. -/
inductive Arity
  | scalar | fixed | varying | optional
deriving DecidableEq

def Arity.spelling : Arity → String
  | scalar => "scalar"
  | fixed => "fixed"
  | varying => "variable"
  | optional => "optional"

inductive Kind
  | const | enumValue | enum | struct | union | typedef
deriving DecidableEq

namespace Kind

def spelling : Kind → String
  | const => "constant"
  | enumValue => "enum value"
  | enum => "enum"
  | struct => "struct"
  | union => "union"
  | typedef => "typedef"

def isType : Kind → Bool
  | const => false
  | enumValue => false
  | _ => true

def isValue (k : Kind) : Bool := !k.isType

end Kind

def inConstRange (v : Int) : Bool := -9223372036854775808 ≤ v && v ≤ 9223372036854775807

def inEnumRange (v : Int) : Bool := -2147483648 ≤ v && v ≤ 2147483647

def inLengthRange (v : Int) : Bool := 0 ≤ v && v ≤ 4294967295

def predefined : List (String × Int) := [("TRUE", 1), ("FALSE", 0)]

def predefined? (name : String) : Option Int := predefined.lookup name

def paddedInt (n : Int) : Int := (n + 3) / 4 * 4

def paddingInt (n : Int) : Int := paddedInt n - n

def padded (n : Nat) : Nat := (n + 3) / 4 * 4

def padding (n : Nat) : Nat := padded n - n

theorem padded_mod (n : Nat) : padded n % 4 = 0 := by simp [padded]

theorem le_padded (n : Nat) : n ≤ padded n := by unfold padded; omega

theorem padded_eq (n : Nat) : padded n = n + padding n := by
  have h := le_padded n
  simp only [padding]
  omega

theorem padding_lt (n : Nat) : padding n < 4 := by
  simp only [padding, padded]
  omega

/-- The size class of a type: a fixed number of bytes, or one that depends on the value. -/
inductive Size
  | fixed (bytes : Nat)
  | varying
deriving DecidableEq

namespace Size

def spelling : Size → String
  | fixed n => s!"fixed({n})"
  | varying => "variable"

def bytes? : Size → Option Nat
  | fixed n => some n
  | varying => none

def isFixed (s : Size) : Bool := s.bytes?.isSome

end Size

end Xdr
