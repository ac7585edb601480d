import Xdr.Fault
import Xdr.Number.Literal

/-!
# Classes of enums

The class of an enum has a member for each value of the enum, except where the name of the value
says otherwise.
-/

namespace Xdr

structure EnumClass where
  name : String
  members : List (String × Int)
  /-- The values that are plain attributes, by their names in the class. -/
  plain : List (String × Int) := []
deriving DecidableEq

namespace EnumClass

def isKept (name : String) : Bool :=
  match name.toList, name.toList.reverse with
  | '_' :: a :: _ :: _, '_' :: b :: _ => a != '_' && b != '_'
  | _, _ => false

def isSpecial (name : String) : Bool :=
  match name.toList, name.toList.reverse with
  | '_' :: '_' :: a :: _ :: _ :: _, '_' :: '_' :: b :: _ => a != '_' && b != '_'
  | _, _ => false

def isPrivate (cls name : String) : Bool :=
  let start := "_" ++ cls ++ "__"
  start.length < name.length && name.startsWith start && !name.endsWith "__"

def settable : List String :=
  ["_order_", "_generate_next_value_", "_numeric_repr_", "_missing_", "_iter_member_",
   "_iter_member_by_value_", "_iter_member_by_def_"]

def neverPlain : List String := ["__slots__", "__qualname__", "__classcell__"]

def usedByMembers : List String :=
  ["__init__", "__new__", "__get__", "__getattr__", "__getattribute__", "__setattr__"]

def neverMembers : List String := ["mro", ""]

def numberOf (v : Value) : Except Fault Int :=
  let found (n : Option Int) : Except Fault Int :=
    match n with
    | some n => .ok n
    | none => .error .badValue
  match v with
  | .float bits => found (Number.truncate? bits.toNat)
  | .str s => found (Number.readInteger? 10 s.toList)
  | _ =>
    match v.wholeNumber? with
    | some n => .ok n
    | none => .error .notApplicable

def add (cls : String) (key : String → String) (e : EnumClass) (value : String × Int) :
    Except Fault EnumClass :=
  let name := key value.1
  let plainly (name : String) : Except Fault EnumClass :=
    .ok { e with plain := e.plain.filter (·.1 != name) ++ [(name, value.2)] }
  if isPrivate cls name then plainly name
  else if isKept name then
    if settable.contains name then plainly name
    else .error (if name = "_ignore_" then .notApplicable else .badValue)
  else if isSpecial name then plainly (if name = "__order__" then "_order_" else name)
  else if e.members.any fun m => key m.1 = name then .error .notApplicable
  else .ok { e with members := e.members ++ [value] }

def isFatal (e : EnumClass) (value : String × Int) : Bool :=
  neverPlain.contains value.1 || (value.1 = "_order_" && value.2 != 0) ||
    (!e.members.isEmpty && usedByMembers.contains value.1)

def finish (key : String → String) (e : EnumClass) : Except Fault EnumClass :=
  if e.members.any fun m => neverMembers.contains (key m.1) then .error .badValue
  else if e.plain.any e.isFatal then .error .notApplicable
  else .ok { e with plain := e.plain.filter (·.1 != "_order_") }

def make (name cls : String) (key : String → String) (values : List (String × Int)) :
    Except Fault EnumClass := do
  finish key (← values.foldlM (add cls key) ⟨name, [], []⟩)

def ofValues (name : String) (values : List (String × Int)) : Except Fault EnumClass :=
  make name name id values

def ofEnum (e : EnumType) : Except Fault EnumClass :=
  let cls := Naming.globalName e.name
  make e.name cls (fun v => Naming.privateName cls (Naming.enumMemberName v)) e.variants

def hasPlain (e : EnumClass) (name : String) : Bool := e.plain.any (·.1 = name)

def search (e : EnumClass) (test : Int → Except Fault Bool) : Except Fault (Option Value) := do
  let found ← e.members.findM? fun m => test m.2
  return found.map fun (variant, n) => .member e.name variant n

def missing (e : EnumClass) : Fault := if e.hasPlain "_missing_" then .notApplicable else .badValue

def member (e : EnumClass) (v : Value) : Except Fault Value := do
  match ← e.search fun n => .ok (v.isNumber n) with
  | some found => return found
  | none => throw e.missing

def all (e : EnumClass) : List Value :=
  (e.members.zipIdx.filter fun (m, i) => !((e.members.take i).any (·.2 = m.2))).map
    fun ((variant, n), _) => .member e.name variant n

def ignoredArguments : List String :=
  ["names", "module", "qualname", "type", "start", "boundary"]

def call (find : Value → Except Fault Value) (args : List Value) (named : List (String × Value)) :
    Except Fault Value :=
  let others := named.filter fun a => a.1 != "value"
  let harmless := others.all fun a =>
    ignoredArguments.contains a.1 && (a.1 != "names" || a.2.isNull)
  match args, named.lookup "value", harmless with
  | [v], none, true => find v
  | [], some v, true => find v
  | [v, .null], none, true => if named.any (·.1 = "names") then .error .notApplicable else find v
  | _, _, _ => .error .notApplicable

def builtinAttr? (e : EnumClass) : String → Option Value
  | "__name__" => some (.str (Naming.globalName e.name))
  | "__qualname__" => some (.str (Naming.globalName e.name))
  | "__bases__" => some (.thing "tuple")
  | "__mro__" => some (.thing "tuple")
  | "__dict__" => some (.thing "mappingproxy")
  | "__members__" => some (.thing "mappingproxy")
  | "__base__" => some (.cls (.root .enum))
  | "__class__" => some (.thing "type")
  | "__basicsize__" => some (.int 32)
  | "__dictoffset__" => some (.int (-8))
  | "__itemsize__" => some (.int 4)
  | "__flags__" => some (.int 20993536)
  | "__weakrefoffset__" => some (.int 0)
  | "__text_signature__" => some .null
  | "__new__" => some (.thing "function")
  | _ => none

def inheritedAttr? : String → Option Value
  | "__doc__" => some .null
  | "__module__" => some (.thing "str")
  | "__hash__" => some (.thing "wrapper_descriptor")
  | "__init__" => some (.thing "function")
  | "__eq__" => some (.thing "wrapper_descriptor")
  | "__annotations__" => some (.thing "dict")
  | "_missing_" => some (.thing "method")
  | "_generate_next_value_" => some (.thing "function")
  | "_member_map_" => some (.thing "dict")
  | "_member_type_" => some (.thing "type")
  | "_new_member_" => some (.thing "builtin_function_or_method")
  | "_value2member_map_" => some (.thing "dict")
  | "_value_repr_" => some (.thing "wrapper_descriptor")
  | "_use_args_" => some (.bool true)
  | "real" => some (.thing "getset_descriptor")
  | "imag" => some (.thing "getset_descriptor")
  | "numerator" => some (.thing "getset_descriptor")
  | "denominator" => some (.thing "getset_descriptor")
  | "bit_length" => some (.thing "method_descriptor")
  | "bit_count" => some (.thing "method_descriptor")
  | "conjugate" => some (.thing "method_descriptor")
  | "to_bytes" => some (.thing "method_descriptor")
  | "from_bytes" => some (.thing "builtin_function_or_method")
  | "as_integer_ratio" => some (.thing "method_descriptor")
  | "pack" => some (.thing "function")
  | "wire_size" => some (.thing "function")
  | "encode" => some (.thing "function")
  | "unpack" => some (.thing "method")
  | "decode" => some (.thing "method")
  | _ => none

def valueAttr? (e : EnumClass) (name : String) : Option Value :=
  match e.members.find? fun m => Naming.enumMemberName m.1 = name with
  | some (variant, n) => some (.member e.name variant n)
  | none => (e.plain.lookup name).map .int

def memberNames (e : EnumClass) : List String := e.members.map fun m => Naming.enumMemberName m.1

def sharedAttr? (e : EnumClass) (name : String) : Option Value :=
  e.valueAttr? name <|>
    if name = "_member_names_" then some (.list (e.memberNames.map .str)) else inheritedAttr? name

def placeAttr? (e : EnumClass) (variant name : String) : Option Value :=
  match name with
  | "_sort_order_" => (e.members.findIdx? (·.1 = variant)).map fun i => .int i
  | "__objclass__" => some (.cls (.enum e.name))
  | _ => none

def attr? (e : EnumClass) (name : String) : Option Value :=
  e.builtinAttr? name <|> e.sharedAttr? name <|>
    if name = "mro" then some (.thing "builtin_function_or_method") else none

end EnumClass

def numberAttr? (n : Int) : String → Option Value
  | "real" => some (.int n)
  | "imag" => some (.int 0)
  | "numerator" => some (.int n)
  | "denominator" => some (.int 1)
  | _ => none

def memberAttr? (variant : String) (n : Int) : String → Option Value
  | "value" => some (.int n)
  | "name" => some (.str (Naming.enumMemberName variant))
  | "_value_" => some (.int n)
  | "_name_" => some (.str (Naming.enumMemberName variant))
  | name => numberAttr? n name

end Xdr
