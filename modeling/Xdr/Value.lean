import Xdr.Emit.Naming
import Xdr.Number.Shortest
import Xdr.Text.Quoted
import Xdr.Wire.Utf8

/-!
# Values

The values that generated classes hold. Constructors check nothing, so a field may hold any value
at all, even a class; what cannot be encoded is refused by the encoder.
-/

namespace Xdr

/-- A class that generated classes extend: the one of all of them but enums, those of the kinds of
types, and that of enums. -/
inductive Root
  | all
  | struct
  | typedef
  | union
  | enum
deriving DecidableEq

def Root.name : Root → String
  | all => "XdrType"
  | struct => "XdrStruct"
  | typedef => "XdrTypedef"
  | union => "XdrUnion"
  | enum => "XdrEnum"

/-- A class of a generated module: of an enum, of another type, or of one arm of a union; or a class
that they extend. -/
inductive ClassKey
  | enum (name : String)
  | type (name : String)
  | arm (union attr : String)
  | root (r : Root)
deriving DecidableEq

namespace ClassKey

def shortName : ClassKey → String
  | enum name => Naming.globalName name
  | type name => Naming.globalName name
  | arm _ attr => attr
  | root r => r.name

def qualifiedName : ClassKey → String
  | enum name => Naming.globalName name
  | type name => Naming.globalName name
  | arm union attr => Naming.globalName union ++ "." ++ attr
  | root r => r.name

def bodyName : ClassKey → String
  | enum name => Naming.globalName name
  | type name => Naming.globalName name
  | arm union attr => "_" ++ Naming.globalName union ++ "_" ++ attr
  | root r => r.name

def isEnum : ClassKey → Bool
  | enum _ => true
  | root .enum => true
  | _ => false

end ClassKey

/-- How bytes are stored: for good, so that they can change, as a view of other bytes, as a view of
pairs of them, or as a view of bytes that lie apart. -/
inductive Storage
  | fixed
  | growable
  | view
  | pairs
  | sparse
deriving DecidableEq

/-- Bytes that lie together, one by one. -/
def Storage.isPlain (s : Storage) : Bool := s != .pairs && s != .sparse

/-- The modules that a generated module imports: its support with the parts that it is made of, that
of records, and that of annotations. -/
inductive Library
  | support
  | codec
  | faults
  | roots
  | records
  | hints
deriving DecidableEq

/-- The functions of the support module: sizes with padding, padding, and the sizes of texts and
bytes. -/
inductive Measurer
  | padded
  | padding
  | text
  | bytes
deriving DecidableEq

/-- A value. Floating-point numbers are given by their eight bytes. -/
inductive Value
  | null
  | bool (b : Bool)
  | int (n : Int)
  | float (bits : UInt64)
  | str (s : String)
  | bytes (bs : List UInt8) (storage : Storage)
  | list (items : List Value)
  | member (enum variant : String) (n : Int)
  | object (cls : ClassKey) (fields : List (String × Value))
  | cls (key : ClassKey)
  | library (l : Library)
  | measurer (f : Measurer)
  | thing (typeName : String)
deriving Inhabited

/-- The attributes of an object by name, in order. -/
abbrev Fields := List (String × Value)

namespace Value

mutual

def depth : Value → Nat
  | null => 0
  | bool _ => 0
  | int _ => 0
  | float _ => 0
  | str _ => 0
  | bytes _ _ => 0
  | list items => depthItems items + 1
  | member _ _ _ => 0
  | object _ fields => depthFields fields + 1
  | cls _ => 0
  | library _ => 0
  | measurer _ => 0
  | thing _ => 0

def depthItems : List Value → Nat
  | [] => 0
  | v :: rest => max v.depth (depthItems rest)

def depthFields : List (String × Value) → Nat
  | [] => 0
  | f :: rest => max (depthField f) (depthFields rest)

def depthField : String × Value → Nat
  | (_, v) => v.depth

end

def isNull : Value → Bool
  | null => true
  | _ => false

def typeName : Value → String
  | null => "NoneType"
  | bool _ => "bool"
  | int _ => "int"
  | float _ => "float"
  | str _ => "str"
  | bytes _ .fixed => "bytes"
  | bytes _ .growable => "bytearray"
  | bytes _ _ => "memoryview"
  | list _ => "list"
  | member enum _ _ => Naming.globalName enum
  | object key _ => key.shortName
  | cls key => if key.isEnum then "EnumType" else "type"
  | library _ => "module"
  | measurer _ => "function"
  | thing name => name

def qualifiedTypeName : Value → String
  | object key _ => key.qualifiedName
  | v => v.typeName

def integer? : Value → Option Int
  | int n => some n
  | member _ _ n => some n
  | _ => none

def wholeNumber? : Value → Option Int
  | bool b => some (if b then 1 else 0)
  | v => v.integer?

def isNumber (v : Value) (n : Int) : Bool :=
  match v with
  | float bits => Number.equalsInteger bits.toNat n
  | _ => v.wholeNumber? = some n

def exceeds? (v : Value) (n : Int) : Option Bool :=
  match v with
  | float bits => some (Number.exceedsInteger bits.toNat n)
  | _ => v.wholeNumber?.map fun m => n < m

def truth : Value → Bool
  | null => false
  | bool b => b
  | int n => n != 0
  | float bits => !Number.equalsInteger bits.toNat 0
  | str s => !s.isEmpty
  | bytes bs _ => !bs.isEmpty
  | list items => !items.isEmpty
  | member _ _ n => n != 0
  | object _ _ => true
  | cls _ => true
  | library _ => true
  | measurer _ => true
  | thing _ => true

def pairsOf : List UInt8 → List Value
  | low :: high :: rest => int (low.toNat + 256 * high.toNat) :: pairsOf rest
  | _ => []

def elements? : Value → Option (List Value)
  | list items => some items
  | str s => some (s.toList.map fun c => str (String.singleton c))
  | bytes bs .pairs => some (pairsOf bs)
  | bytes bs _ => some (bs.map fun b => int b.toNat)
  | _ => none

def memberText (enum variant : String) (n : Int) : String :=
  "<" ++ Naming.globalName enum ++ "." ++ Naming.enumMemberName variant ++ ": " ++ toString n ++ ">"

def plainText : Value → String
  | null => "None"
  | bool b => if b then "True" else "False"
  | int n => toString n
  | float bits => Number.showDouble bits.toNat
  | str s => Text.quote s
  | bytes bs .fixed => Text.quoteBytes bs
  | bytes bs .growable => "bytearray(" ++ Text.quoteBytes bs ++ ")"
  | member enum variant n => memberText enum variant n
  | cls (.enum name) => "<enum '" ++ Naming.globalName name ++ "'>"
  | cls (.root .enum) => "<enum '" ++ Root.enum.name ++ "'>"
  | cls (.root r) => "<class 'fastxdr.runtime.types." ++ r.name ++ "'>"
  | cls key => "<class '" ++ key.qualifiedName ++ "'>"
  | v => "<" ++ v.typeName ++ ">"

def numberText : Value → String
  | member _ _ n => toString n
  | v => v.plainText

end Value

end Xdr
