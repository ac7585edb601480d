import Xdr.Schema

/-!
# Names in the generated module

A name of the specification is used as it stands, except where it is a keyword of the generated
language or a name that the generated code relies on: then it gets an underscore.
-/

namespace Xdr.Naming

def keywords : List String :=
  ["False", "None", "True", "and", "as", "assert", "async", "await", "break", "class", "continue",
   "def", "del", "elif", "else", "except", "finally", "for", "from", "global", "if", "import", "in",
   "is", "lambda", "nonlocal", "not", "or", "pass", "raise", "return", "try", "while", "with",
   "yield"]

def memberReserved : List String :=
  ["pack", "unpack", "encode", "decode", "wire_size", "WIRE_SIZE", "STRICT_PADDING", "CASES",
   "DEFAULT", "variant"]

def enumReserved : List String := memberReserved ++ ["mro", "name", "value"]

def globalReserved : List String :=
  ["annotations", "_xdr", "_dc", "_t", "w", "r", "v", "self", "cls", "_disc", "_node", "_nodes",
   "_next", "_other", "_parts", "_size", "_tails", "_values", "int", "float", "bool", "str", "len",
   "sum"]

/-- Keywords and reserved names get an underscore. -/
def safe (reserved : List String) (name : String) : String :=
  if keywords.contains name || reserved.contains name then name ++ "_" else name

def globalName (name : String) : String := safe globalReserved name

def memberName (name : String) : String := safe memberReserved name

def enumMemberName (name : String) : String := safe enumReserved name

/-- A name as the body of a class reads it. Two underscores in front make a name private to the class,
unless two stand behind it as well: it is then known by the class's own name, without the underscores
in front of that, and the name itself. -/
def privateName (cls name : String) : String :=
  let bare := cls.toList.dropWhile (· = '_')
  if name.startsWith "__" && !name.endsWith "__" && !bare.isEmpty then
    "_" ++ String.ofList bare ++ name
  else name

def defaultVariant : String := "default"

/-- The name of an arm by its first label: the label as written when it is a name, else the name of
its number in the discriminant's enum, else one made of the number. -/
def variantName (enum : Option EnumType) (label : Label) : String :=
  match label.name with
  | some spelled => memberName spelled
  | none =>
    match enum.bind (·.variant? label.value) with
    | some variant => memberName variant
    | none =>
      if label.value < 0 then s!"case_neg_{-label.value}" else s!"case_{label.value}"

/-- Underscores are added until the name is not taken. -/
def freshen (taken : List String) : Nat → String → String
  | 0, name => name
  | n + 1, name => if taken.contains name then freshen taken n (name ++ "_") else name

def variantNamesFrom (enum : Option EnumType) : List String → List Label → List String
  | _, [] => []
  | taken, label :: rest =>
    let name := freshen taken taken.length (variantName enum label)
    name :: variantNamesFrom enum (name :: taken) rest

def variantNames (enum : Option EnumType) (hasDefault : Bool) (labels : List Label) : List String :=
  variantNamesFrom enum (if hasDefault then [defaultVariant] else []) labels

end Xdr.Naming
