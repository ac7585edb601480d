import Xdr.Emit.Phrase
import Xdr.Emit.Plan

/-!
# Expressions for declarations

Every declaration is written in four ways: as an annotation, as a statement that packs a value, as
an expression that unpacks one, and as its share of the encoded size.
-/

namespace Xdr.Emit

open Naming Phrase

/-- An annotation: the name of a type, the variable for the storage of opaque bytes, or a type applied
to another annotation. -/
inductive Hint
  | named (name : Phrase)
  | storage
  | applied (head : Phrase) (argument : Hint)
deriving DecidableEq

def Hint.phrase : Hint → Phrase
  | named name => name
  | storage => attr (rely "_xdr") "B"
  | applied head argument => head ++ plain "[" ++ argument.phrase ++ plain "]"

def scalarHint : Builtin → Hint
  | .int | .uint | .hyper | .uhyper => .named (rely "int")
  | .float | .double => .named (rely "float")
  | .bool => .named (rely "bool")
  | .string => .named (rely "str")
  | .opaqueBytes => .storage
  | .quadruple | .void => .named []

def scalarMethod : Builtin → String
  | .int => "int"
  | .uint => "uint"
  | .hyper => "hyper"
  | .uhyper => "uhyper"
  | .float => "float"
  | .double => "double"
  | .bool => "bool"
  | .opaqueBytes | .string | .quadruple | .void => ""

def packer (name : String) : Phrase := attr (rely "w") ("pack_" ++ name)

def unpacker (name : String) : Phrase := attr (rely "r") ("unpack_" ++ name)

def bound (length : Option Nat) : Phrase := plain ((length.map toString).getD "None")

def isEnum (s : Schema) (name : String) : Bool := (s.find? name).any (·.kind = .enum)

def classHint (name : String) (generic : Bool) : Hint :=
  if generic then .applied (own name) .storage else .named (own name)

def elementHint (s : Schema) : Base → Hint
  | .builtin b => scalarHint b
  | .named name => classHint (globalName name) (s.holdsOpaque (.scalar (.named name)))

def elementPacker (s : Schema) : Base → Phrase
  | .builtin b => packer (scalarMethod b)
  | .named name =>
    if isEnum s name then lambda ["v"] (call (packer "enum") [own (globalName name), rely "v"])
    else lambda ["v"] (call (attr (rely "v") "pack") [rely "w"])

def elementUnpacker (s : Schema) : Base → Phrase
  | .builtin b => unpacker (scalarMethod b)
  | .named name =>
    if isEnum s name then lambda [] (call (unpacker "enum") [own (globalName name)])
    else lambda [] (call (attr (own (globalName name)) "unpack") [rely "r"])

def elementPack (s : Schema) (value : Phrase) : Base → Phrase
  | .builtin b => call (packer (scalarMethod b)) [value]
  | .named name =>
    if isEnum s name then call (packer "enum") [own (globalName name), value]
    else call (attr value "pack") [rely "w"]

def elementUnpack (s : Schema) : Base → Phrase
  | .builtin b => call (unpacker (scalarMethod b)) []
  | .named name =>
    if isEnum s name then call (unpacker "enum") [own (globalName name)]
    else call (attr (own (globalName name)) "unpack") [rely "r"]

def hint (s : Schema) (d : Shape) : Hint :=
  let element := elementHint s d.base
  if d.base.isBytes then element
  else
    match d.arity with
    | .optional => .applied (attr (rely "_t") "Optional") element
    | .fixed => .applied (attr (rely "_t") "List") element
    | .varying => .applied (attr (rely "_t") "List") element
    | .scalar => element

def typeHint (s : Schema) (d : Shape) : String := (hint s d).phrase.text

def packStatement (s : Schema) (d : Shape) (value : Phrase) : Phrase :=
  let length := bound d.length
  match d.base with
  | .builtin .opaqueBytes =>
    if d.arity = .fixed then call (packer "fopaque") [length, value]
    else call (packer "opaque") [length, value]
  | .builtin .string => call (packer "string") [length, value]
  | base =>
    let item := elementPacker s base
    match d.arity with
    | .optional => call (packer "optional") [value, item]
    | .fixed => call (packer "farray") [length, value, item]
    | .varying => call (packer "array") [length, value, item]
    | .scalar => elementPack s value base

def unpackExpression (s : Schema) (d : Shape) : Phrase :=
  let length := bound d.length
  match d.base with
  | .builtin .opaqueBytes =>
    if d.arity = .fixed then call (unpacker "fopaque") [length]
    else call (unpacker "opaque") [length]
  | .builtin .string => call (unpacker "string") [length]
  | base =>
    let item := elementUnpacker s base
    match d.arity with
    | .optional => call (unpacker "optional") [item]
    | .fixed => call (unpacker "farray") [length, item]
    | .varying => call (unpacker "array") [length, item]
    | .scalar => elementUnpack s base

/-- Bytes that are always there, and an expression for the others. -/
abbrev SizeTerm := Nat × Option Phrase

def ownSize (value : Phrase) : Phrase := call (attr value "wire_size") []

def itemSizes (value : Phrase) : Option Nat → Phrase
  | some n => plain (toString n ++ " * ") ++ call (rely "len") [value]
  | none => call (rely "sum") [ownSize (rely "x") ++ plain " for " ++ rely "x" ++ plain " in " ++ value]

def sizeTerm (s : Schema) (d : Shape) (value : Phrase) : SizeTerm :=
  match s.sizeOf d with
  | .fixed n => (n, none)
  | .varying =>
    let element := (s.sizeOf (.scalar d.base)).bytes?
    match d.base with
    | .builtin .opaqueBytes => (0, some (call (attr (rely "_xdr") "opaque_size") [value]))
    | .builtin .string => (0, some (call (attr (rely "_xdr") "string_size") [value]))
    | _ =>
      match d.arity with
      | .optional =>
        let inner := (element.map fun n => plain (toString n)).getD (ownSize value)
        (4, some (plain "(0 if " ++ value ++ plain " is None else " ++ inner ++ plain ")"))
      | .fixed => (0, some (itemSizes value element))
      | .varying => (4, some (itemSizes value element))
      | .scalar => (0, some (ownSize value))

/-- The constant parts are added up, and stand first unless they are none. -/
def foldSizes (terms : List SizeTerm) : Phrase :=
  let constant := terms.foldl (fun n term => n + term.1) 0
  let expressions := terms.filterMap (·.2)
  if expressions.isEmpty then plain (toString constant)
  else
    join " + " (if constant = 0 then expressions else plain (toString constant) :: expressions)

end Xdr.Emit
