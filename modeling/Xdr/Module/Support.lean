import Xdr.Wire.Writer

/-!
# Imported modules

A generated module imports three others, which are values of it like any other.
-/

namespace Xdr

namespace Measurer

def name : Measurer → String
  | padded => "padded"
  | padding => "padding"
  | text => "string_size"
  | bytes => "opaque_size"

def all : List Measurer := [padded, padding, text, bytes]

def parameter : Measurer → String
  | padded => "n"
  | padding => "n"
  | text => "s"
  | bytes => "data"

def ofText : Value → Except Fault Nat
  | .str s => .ok (stringSize s)
  | .member _ _ _ => .error .notApplicable
  | .object _ _ => .error .notApplicable
  | _ => .error .noAttribute

def ofBytes : Value → Except Fault Nat
  | .bytes bs _ => .ok (opaqueSize bs)
  | _ => .error .notApplicable

def apply (f : Measurer) (v : Value) : Except Fault Value :=
  let number (g : Int → Int) : Except Fault Value :=
    match v.wholeNumber? with
    | some n => .ok (.int (g n))
    | none => .error .notApplicable
  match f with
  | padded => number paddedInt
  | padding => number paddingInt
  | text => (ofText v).map fun n => .int n
  | bytes => (ofBytes v).map fun n => .int n

def call (f : Measurer) (args : List Value) (named : List (String × Value)) : Except Fault Value :=
  match args, named with
  | [v], [] => f.apply v
  | [], [(name, v)] => if name = f.parameter then f.apply v else .error .notApplicable
  | _, _ => .error .notApplicable

end Measurer

namespace Root

def ofName? (name : String) : Option Root :=
  [all, struct, typedef, union, enum].find? (·.name = name)

def doc? : Root → Option String
  | all =>
    some ("Shared encode/decode entry points.\n\n" ++
      "    Subclasses implement ``pack(writer)`` and the classmethod\n" ++
      "    ``unpack(reader)``. Fixed-size types set ``WIRE_SIZE``; the others\n" ++
      "    override ``wire_size()``.\n    ")
  | struct => none
  | typedef => some "A nominal wrapper: instances hold the aliased value in ``value``."
  | union =>
    some ("Base of a discriminated union.\n\n" ++
      "    Each arm is a subclass. ``CASES`` lists the discriminant values an arm\n" ++
      "    accepts; the default arm sets ``DEFAULT`` and accepts every value not\n" ++
      "    claimed by another arm (listed in ``CASES``).\n    ")
  | enum => some "Base of generated enums. Members encode as signed 32-bit integers."

def origin (r : Root) : List (String × Value) :=
  [("__module__", .str "fastxdr.runtime.types"), ("__doc__", (r.doc?.map .str).getD .null)]

def attrs (r : Root) : List (String × Value) :=
  [("WIRE_SIZE", .null), ("STRICT_PADDING", .bool false), ("__basicsize__", .int 16),
   ("__dictoffset__", .int 0), ("__weakrefoffset__", .int 0)] ++ r.origin

def enumClass : EnumClass := ⟨enum.name, [], []⟩

end Root

namespace Library

def name : Library → String
  | support => "fastxdr.runtime"
  | codec => "fastxdr.runtime.codec"
  | faults => "fastxdr.runtime.errors"
  | roots => "fastxdr.runtime.types"
  | records => "dataclasses"
  | hints => "typing"

def package : Library → String
  | records => ""
  | hints => ""
  | _ => "fastxdr.runtime"

def doc : Library → Value
  | support => .str "Support code imported by generated modules."
  | faults => .str "Errors raised by generated encode/decode routines."
  | roots => .str "Base classes of generated XDR types."
  | records => .null
  | _ => .thing "str"

def offered? : Library → Option (List String)
  | support => some
    ["Reader", "Writer", "padded", "padding", "string_size", "opaque_size", "DecodeError",
     "EncodeError", "InsufficientBytesError", "InvalidBooleanError", "InvalidLengthError",
     "InvalidOptionalFlagError", "InvalidPaddingError", "NonUtf8StringError",
     "UnknownDiscriminantError", "UnknownEnumValueError", "B", "XdrEnum", "XdrStruct", "XdrType",
     "XdrTypedef", "XdrUnion"]
  | records => some
    ["dataclass", "field", "Field", "FrozenInstanceError", "InitVar", "KW_ONLY", "MISSING",
     "fields", "asdict", "astuple", "make_dataclass", "replace", "is_dataclass"]
  | hints => some
    ["Annotated", "Any", "Callable", "ClassVar", "Concatenate", "Final", "ForwardRef",
     "Generic", "Literal", "Optional", "ParamSpec", "Protocol", "Tuple", "Type", "TypeVar",
     "TypeVarTuple", "Union", "AbstractSet", "ByteString", "Container", "ContextManager",
     "Hashable", "ItemsView", "Iterable", "Iterator", "KeysView", "Mapping", "MappingView",
     "MutableMapping", "MutableSequence", "MutableSet", "Sequence", "Sized", "ValuesView",
     "Awaitable", "AsyncIterator", "AsyncIterable", "Coroutine", "Collection",
     "AsyncGenerator", "AsyncContextManager", "Reversible", "SupportsAbs", "SupportsBytes",
     "SupportsComplex", "SupportsFloat", "SupportsIndex", "SupportsInt", "SupportsRound",
     "ChainMap", "Counter", "Deque", "Dict", "DefaultDict", "List", "OrderedDict", "Set",
     "FrozenSet", "NamedTuple", "TypedDict", "Generator", "BinaryIO", "IO", "Match",
     "Pattern", "TextIO", "AnyStr", "assert_type", "assert_never", "cast", "clear_overloads",
     "dataclass_transform", "final", "get_args", "get_origin", "get_overloads",
     "get_type_hints", "is_typeddict", "LiteralString", "Never", "NewType", "no_type_check",
     "no_type_check_decorator", "NoReturn", "NotRequired", "overload", "ParamSpecArgs",
     "ParamSpecKwargs", "Required", "reveal_type", "runtime_checkable", "Self", "Text",
     "TYPE_CHECKING", "TypeAlias", "TypeGuard", "Unpack"]
  | _ => none

def faultNames : List String :=
  ["DecodeError", "EncodeError", "InsufficientBytesError", "InvalidBooleanError",
   "InvalidLengthError", "InvalidOptionalFlagError", "InvalidPaddingError", "NonUtf8StringError",
   "UnknownDiscriminantError", "UnknownEnumValueError"]

def ofSupport : List (String × List String) :=
  [("type", ["Reader", "Writer"] ++ faultNames), ("TypeVar", ["B"]), ("list", ["__path__"])]

def ofCodec : List (String × List String) :=
  [("type",
    ["Reader", "Writer", "TypeVar"] ++
      faultNames.filter fun n => n != "DecodeError" && n != "UnknownDiscriminantError"),
   ("TypeVar", ["T"]),
   ("Struct", ["_INT", "_UINT", "_HYPER", "_UHYPER", "_FLOAT", "_DOUBLE"]),
   ("dict", ["_RANGES"]),
   ("module", ["struct"]),
   ("_SpecialForm", ["Optional"]),
   ("_SpecialGenericAlias", ["Callable", "List", "Sequence", "Type"])]

def ofFaults : List (String × List String) :=
  [("type", faultNames), ("_SpecialForm", ["Optional"])]

def ofRoots : List (String × List String) :=
  [("type", ["Reader", "Writer", "TypeVar", "EncodeError", "UnknownDiscriminantError"]),
   ("TypeVar", ["B"]),
   ("module", ["enum"]),
   ("_SpecialForm", ["ClassVar", "Optional"]),
   ("_SpecialGenericAlias", ["FrozenSet", "Tuple"])]

def ofRecords : List (String × List String) :=
  [("function",
    ["dataclass", "field", "fields", "asdict", "astuple", "make_dataclass", "replace",
     "is_dataclass"]),
   ("type", ["Field", "FrozenInstanceError", "InitVar"]),
   ("_MISSING_TYPE", ["MISSING"]),
   ("_KW_ONLY_TYPE", ["KW_ONLY"]),
   ("module",
    ["abc", "builtins", "copy", "functools", "inspect", "itertools", "keyword", "re", "sys",
     "types", "_thread"])]

def ofHints : List (String × List String) :=
  [("_SpecialForm",
    ["Annotated", "Any", "ClassVar", "Concatenate", "Final", "Literal", "LiteralString", "Never",
     "NoReturn", "NotRequired", "Optional", "Required", "Self", "TypeAlias", "TypeGuard", "Union",
     "Unpack"]),
   ("type",
    ["AnyStr", "BinaryIO", "ForwardRef", "Generic", "IO", "NewType", "ParamSpec",
     "ParamSpecArgs", "ParamSpecKwargs", "Protocol", "SupportsAbs", "SupportsBytes",
     "SupportsComplex", "SupportsFloat", "SupportsIndex", "SupportsInt", "SupportsRound", "Text",
     "TextIO", "TypeVar", "TypeVarTuple"]),
   ("_SpecialGenericAlias",
    ["AbstractSet", "AsyncContextManager", "AsyncGenerator", "AsyncIterable", "AsyncIterator",
     "Awaitable", "ByteString", "Callable", "ChainMap", "Collection", "Container",
     "ContextManager", "Coroutine", "Counter", "DefaultDict", "Deque", "Dict", "FrozenSet",
     "Generator", "Hashable", "ItemsView", "Iterable", "Iterator", "KeysView", "List", "Mapping",
     "MappingView", "Match", "MutableMapping", "MutableSequence", "MutableSet", "OrderedDict",
     "Pattern", "Reversible", "Sequence", "Set", "Sized", "Tuple", "Type", "ValuesView"]),
   ("function",
    ["NamedTuple", "TypedDict", "assert_never", "assert_type", "cast", "clear_overloads",
     "dataclass_transform", "final", "get_args", "get_origin", "get_overloads", "get_type_hints",
     "is_typeddict", "no_type_check", "no_type_check_decorator", "overload", "reveal_type",
     "runtime_checkable"]),
   ("module",
    ["collections", "contextlib", "functools", "io", "operator", "re", "sys", "types", "warnings"])]

def ofEvery : List (String × List String) :=
  [("dict", ["__dict__", "__builtins__", "__annotations__"]), ("type", ["__class__"]),
   ("ModuleSpec", ["__spec__"]), ("SourceFileLoader", ["__loader__"]),
   ("str", ["__cached__", "__file__"])]

def rootOf? (name : String) : Option Value := (Root.ofName? name).map fun r => .cls (.root r)

def measurerOf? (name : String) : Option Value :=
  (Measurer.all.find? (·.name = name)).map .measurer

def value? (l : Library) (name : String) : Option Value :=
  match l with
  | support =>
    rootOf? name <|> measurerOf? name <|>
      [("codec", Value.library codec), ("errors", .library faults),
        ("types", .library roots)].lookup name
  | codec =>
    measurerOf? name <|>
      [("annotations", Value.thing "_Feature"), ("_ZEROS", .bytes [0, 0, 0, 0] .fixed)].lookup name
  | faults => if name = "annotations" then some (.thing "_Feature") else none
  | roots =>
    rootOf? name <|>
      [("annotations", Value.thing "_Feature"), ("dataclasses", .library records)].lookup name
  | records => none
  | hints => if name = "TYPE_CHECKING" then some (.bool false) else none

def things : Library → List (String × List String)
  | support => ofSupport
  | codec => ofCodec
  | faults => ofFaults
  | roots => ofRoots
  | records => ofRecords
  | hints => ofHints

def attr? (l : Library) (name : String) : Option Value :=
  if name = "__name__" then some (.str l.name)
  else if name = "__package__" then some (.str l.package)
  else if name = "__doc__" then some l.doc
  else
    (if name = "__all__" then l.offered?.map fun names => .list (names.map .str) else none) <|>
      l.value? name <|>
      ((l.things ++ ofEvery).find? (·.2.contains name)).map fun entry => .thing entry.1

end Library

end Xdr
