import Xdr.Value

/-!
# Attributes that nobody declared

Whoever looks for an attribute of a class may find one that no specification put there.
-/

namespace Xdr.Inherited

def byType : List (String × List String) :=
  [("type", ["__class__"]),
   ("tuple", ["__bases__", "__mro__", "__slots__"]),
   ("str", ["__module__"]),
   ("dict", ["__annotations__"]),
   ("mappingproxy", ["__dict__"]),
   ("_DataclassParams", ["__dataclass_params__"]),
   ("getset_descriptor", ["__weakref__"]),
   ("method-wrapper", ["__call__", "__or__", "__ror__"]),
   ("wrapper_descriptor",
    ["__delattr__", "__eq__", "__ge__", "__getattribute__", "__gt__", "__hash__", "__init__",
     "__le__", "__lt__", "__ne__", "__repr__", "__setattr__", "__str__"]),
   ("method_descriptor",
    ["__dir__", "__format__", "__getstate__", "__reduce__", "__reduce_ex__", "__sizeof__"]),
   ("builtin_function_or_method",
    ["__init_subclass__", "__instancecheck__", "__new__", "__prepare__", "__subclasscheck__",
     "__subclasses__", "__subclasshook__", "mro"]),
   ("function", ["pack", "wire_size", "encode"]),
   ("method", ["unpack", "decode"])]

def known : List (String × Value) :=
  [("__basicsize__", .int 24), ("__dictoffset__", .int (-48)), ("__flags__", .int 22032),
   ("__itemsize__", .int 0), ("__weakrefoffset__", .int 16), ("__doc__", .null),
   ("__text_signature__", .null)]

def ofGeneric : List (String × Value) :=
  [("__class_getitem__", .thing "method"), ("__init_subclass__", .thing "method"),
   ("__orig_bases__", .thing "tuple"), ("__parameters__", .thing "tuple"),
   ("_is_protocol", .bool false)]

def ofUnion : List (String × Value) :=
  [("CASES", .thing "frozenset"), ("DEFAULT", .bool false), ("variant", .thing "method"),
   ("_check_discriminant", .thing "function")]

def ofChain : List (String × Value) :=
  [("__eq__", .thing "function"), ("__repr__", .thing "function"), ("__hash__", .null)]

def ofEvery? (name : String) : Option Value :=
  known.lookup name <|> (byType.find? (·.2.contains name)).map (.thing ·.1)

def ofAllClasses : List String :=
  ["__base__", "__bases__", "__basicsize__", "__class__", "__dataclass_params__", "__dict__",
   "__dictoffset__", "__flags__", "__itemsize__", "__mro__", "__name__", "__orig_bases__",
   "__parameters__", "__qualname__", "__text_signature__", "__weakrefoffset__"]

def onClassOnly : List String :=
  ["__base__", "__bases__", "__basicsize__", "__dictoffset__", "__flags__", "__itemsize__",
   "__mro__", "__name__", "__qualname__", "__text_signature__", "__weakrefoffset__", "__call__",
   "__or__", "__ror__", "__instancecheck__", "__prepare__", "__subclasscheck__", "__subclasses__",
   "mro"]

def changeable : List String := ["dict", "mappingproxy"]

def ofValue : List (String × List String) :=
  [("type", ["__class__"]),
   ("method-wrapper",
    ["__delattr__", "__eq__", "__ge__", "__getattribute__", "__gt__", "__hash__", "__init__",
     "__le__", "__lt__", "__ne__", "__repr__", "__setattr__", "__str__"]),
   ("builtin_function_or_method",
    ["__dir__", "__format__", "__getstate__", "__init_subclass__", "__new__", "__reduce__",
     "__reduce_ex__", "__sizeof__", "__subclasshook__"])]

def ofNumber : List (String × List String) :=
  [("method-wrapper",
    ["__abs__", "__add__", "__and__", "__bool__", "__divmod__", "__float__", "__floordiv__",
     "__index__", "__int__", "__invert__", "__lshift__", "__mod__", "__mul__", "__neg__",
     "__or__", "__pos__", "__pow__", "__radd__", "__rand__", "__rdivmod__", "__rfloordiv__",
     "__rlshift__", "__rmod__", "__rmul__", "__ror__", "__rpow__", "__rrshift__", "__rshift__",
     "__rsub__", "__rtruediv__", "__rxor__", "__sub__", "__truediv__", "__xor__"]),
   ("builtin_function_or_method",
    ["__ceil__", "__floor__", "__getnewargs__", "__round__", "__trunc__", "as_integer_ratio",
     "bit_count", "bit_length", "conjugate", "from_bytes", "to_bytes"]),
   ("str", ["__doc__"])]

def ofVariant : List (String × List String) :=
  [("method", ["__copy__", "__deepcopy__"]), ("dict", ["__dict__"])]

def ofEnumClass : List (String × List String) :=
  [("function", ["__copy__", "__deepcopy__"]),
   ("method",
    ["__call__", "__contains__", "__getattr__", "__getitem__", "__iter__", "__len__",
     "__prepare__", "__reversed__", "_check_for_existing_members_", "_convert_", "_create_",
     "_find_data_repr_", "_find_data_type_", "_find_new_", "_get_mixins_"]),
   ("builtin_function_or_method", ["__instancecheck__", "__subclasscheck__", "__subclasses__"]),
   ("getset_descriptor", ["__weakref__"])]

def ofText : List (String × List String) :=
  [("method-wrapper",
    ["__add__", "__contains__", "__getitem__", "__iter__", "__len__", "__mod__", "__mul__",
     "__rmod__", "__rmul__"]),
   ("builtin_function_or_method",
    ["__getnewargs__", "capitalize", "casefold", "center", "count", "encode", "endswith",
     "expandtabs", "find", "format", "format_map", "index", "isalnum", "isalpha", "isascii",
     "isdecimal", "isdigit", "isidentifier", "islower", "isnumeric", "isprintable", "isspace",
     "istitle", "isupper", "join", "ljust", "lower", "lstrip", "maketrans", "partition",
     "removeprefix", "removesuffix", "replace", "rfind", "rindex", "rjust", "rpartition",
     "rsplit", "rstrip", "split", "splitlines", "startswith", "strip", "swapcase", "title",
     "translate", "upper", "zfill"]),
   ("str", ["__doc__"])]

def ofList : List (String × List String) :=
  [("method-wrapper",
    ["__add__", "__contains__", "__delitem__", "__iadd__", "__imul__", "__iter__", "__len__",
     "__mul__", "__rmul__", "__setitem__"]),
   ("builtin_function_or_method",
    ["__class_getitem__", "__getitem__", "__reversed__", "append", "clear", "copy", "count",
     "extend", "index", "insert", "pop", "remove", "reverse", "sort"]),
   ("str", ["__doc__"])]

def ofSwitch : List (String × Value) :=
  [("compiler_flag", .int 16777216), ("mandatory", .null), ("optional", .thing "tuple"),
   ("getMandatoryRelease", .thing "method"), ("getOptionalRelease", .thing "method")]

def ofEnum? (name : String) : Option Value :=
  ((ofEnumClass ++ ofNumber ++ ofValue).find? (·.2.contains name)).map fun a => .thing a.1

def ofPlain? (v : Value) (name : String) : Option Value :=
  let found (own : List (String × List String)) :=
    ((own ++ ofValue).find? (·.2.contains name)).map fun a => Value.thing a.1
  match v with
  | .int _ | .bool _ => found ofNumber
  | .member _ _ _ => found (ofVariant ++ ofNumber)
  | .str _ => found ofText
  | .list _ => if name = "__hash__" then some .null else found ofList
  | .null =>
    if name = "__doc__" then some .null else found [("method-wrapper", ["__bool__"])]
  | .thing "_Feature" => ofSwitch.lookup name <|> found []
  | _ => found []

end Xdr.Inherited
