import Xdr.Config
import Xdr.Emit.Expression
import Xdr.Emit.Line
import Xdr.Text.Quoted

/-!
# The text of classes

Enums, typedefs and structs of a generated module.
-/

namespace Xdr.Emit

open Naming Lines Phrase

/-- A field of a class: its annotation, and its default when it has one. -/
structure FieldText where
  name : String
  hint : Hint
  default : Option Phrase
deriving DecidableEq

def FieldText.phrase (f : FieldText) : Phrase :=
  plain (f.name ++ ": ") ++ f.hint.phrase ++ (f.default.map (plain " = " ++ ·)).getD []

/-- A class: what is written above it, its bases, its fields, the values of an enum, and the lines
below them. -/
structure ClassText where
  decorators : List Phrase
  name : String
  parents : List Hint
  fields : List FieldText
  values : List (String × Int)
  body : Lines
deriving DecidableEq

def ClassText.lines (k : ClassText) : Lines :=
  let fields := k.fields.flatMap fun f => line f.phrase
  let values := k.values.flatMap fun (name, v) => line (plain s!"{name} = {v}")
  k.decorators.flatMap line ++
    block (plain "class " ++ call (binds k.name) (k.parents.map Hint.phrase) ++ plain ":")
      ((if fields.isEmpty then [] else fields ++ blank 1) ++ values ++ k.body) ++
    blank 2

def support (name : String) : Phrase := attr (rely "_xdr") name

def generic : Hint := .applied (attr (rely "_t") "Generic") .storage

def bases (base : String) (t : TypeInfo) : List Hint :=
  .named (support base) :: if t.holdsOpaque then [generic] else []

def dataclass : Phrase := plain "@" ++ attr (rely "_dc") "dataclass"

def classAttributes (c : Config) (t : TypeInfo) : Lines :=
  let lines :=
    (match t.size with
      | .fixed n => line (plain s!"WIRE_SIZE = {n}")
      | .varying => []) ++
    if c.strictPadding then line (plain "STRICT_PADDING = True") else []
  if lines.isEmpty then [] else lines ++ blank 1

def packHeader : Phrase :=
  method "pack" [rely "self", typed "w" (support "Writer")] (plain "None")

def sizeHeader : Phrase := method "wire_size" [rely "self"] (rely "int")

def unpackMethod (name : String) (body : Lines) : Lines :=
  line (plain "@" ++ rely "classmethod") ++
    block (method "unpack" [rely "cls", typed "r" (support "Reader")] (own name)) body

def sizeMethod (t : TypeInfo) (terms : List SizeTerm) : Lines :=
  if t.size.isFixed then []
  else blank 1 ++ block sizeHeader (line (returns (foldSizes terms)))

def enumClass (e : EnumType) : ClassText :=
  { decorators := []
    name := globalName e.name
    parents := [.named (support "XdrEnum")]
    fields := []
    values := e.variants.map fun v => (enumMemberName v.1, v.2)
    body := if e.variants.isEmpty then line (plain "pass") else [] }

def aliasLines (e : EnumType) : Lines :=
  let aliases := e.variants.flatMap fun v =>
    line (assign (binds (globalName v.1)) (attr (own (globalName e.name)) (enumMemberName v.1)))
  if aliases.isEmpty then [] else aliases ++ blank 2

def typedefClass (s : Schema) (c : Config) (t : TypeInfo) (d : Shape) : ClassText :=
  let name := globalName t.name
  let value := attr (rely "self") "value"
  { decorators := [dataclass ++ plain "(frozen=True)"]
    name
    parents := bases "XdrTypedef" t
    fields := [⟨"value", hint s d, none⟩]
    values := []
    body := classAttributes c t ++
      block packHeader (line (packStatement s d value)) ++ blank 1 ++
      unpackMethod name (line (returns (call (rely "cls") [unpackExpression s d]))) ++
      sizeMethod t [sizeTerm s d value] }

namespace Chain

/-- The node behind one, taken out of its typedefs. -/
def next (c : Chain) (node : String) : Phrase :=
  attr (rely node) c.link ++ c.wrappers.flatMap fun _ => plain ".value"

def wrap (c : Chain) (value : Phrase) : Phrase :=
  c.wrappers.foldr (fun wrapper inner => call (own (globalName wrapper)) [inner]) value

def packFields (s : Schema) (fields : List (String × Decl)) : Lines :=
  fields.flatMap fun (name, f) => line (packStatement s f.toShape (attr (rely "_node") name))

/-- Walks the list from its first node on. -/
def loop (body : Lines) : Lines :=
  line (assign (rely "_node") (rely "self")) ++
    block (plain "while " ++ rely "_node" ++ plain " is not None:") body

def backwards (item items : String) (body : Lines) : Lines :=
  block (plain "for " ++ rely item ++ plain " in " ++ call (rely "reversed") [rely items] ++ plain ":")
    body

def emptyList (name : String) : Lines := line (assign (rely name) (plain "[]"))

def append (items : String) (value : Phrase) : Lines :=
  line (call (attr (rely items) "append") [value])

def packLines (s : Schema) (c : Chain) : Lines :=
  let saved := !c.behind.isEmpty
  block packHeader
    ((if saved then emptyList "_nodes" else []) ++
      loop
        (packFields s c.before ++ line (assign (rely "_next") (next c "_node")) ++
          line (call (packer "optional_flag") [rely "_next" ++ plain " is not None"]) ++
          (if saved then append "_nodes" (rely "_node") else []) ++
          line (assign (rely "_node") (rely "_next"))) ++
      if saved then backwards "_node" "_nodes" (packFields s c.behind) else [])

def unpackLines (s : Schema) (c : Chain) (name : String) : Lines :=
  let values (fields : List (String × Decl)) := fields.map fun f => unpackExpression s f.2.toShape
  unpackMethod name
    (emptyList "_nodes" ++
      block (plain "while True:")
        (append "_nodes" (tuple (values c.before)) ++
          block (plain "if not " ++ call (unpacker "optional_flag") [] ++ plain ":")
            (line (plain "break"))) ++
      line (assign (rely "_next") (plain "None")) ++
      backwards "_values" "_nodes"
        (line (assign (rely "_next") (call (rely "cls")
          ((plain "*" ++ rely "_values") :: wrap c (rely "_next") :: values c.behind)))) ++
      line (returns (rely "_next")))

def sizeLines (s : Schema) (c : Chain) : Lines :=
  let terms := (c.before ++ c.behind).map fun (name, f) =>
    sizeTerm s f.toShape (attr (rely "_node") name)
  block sizeHeader
    (line (assign (rely "_size") (plain "0")) ++
      loop
        (line (rely "_size" ++ plain " += " ++ foldSizes (terms ++ [(4, none)])) ++
          line (assign (rely "_node") (next c "_node"))) ++
      line (returns (rely "_size")))

def equalLines (c : Chain) : Lines :=
  let others := (c.before ++ c.behind).map (·.1)
  let fields (node : String) := tuple (others.map (attr (rely node)))
  let both := commas [rely "_node", rely "_other"]
  let cls (name : String) := attr (rely name) "__class__"
  block (method "__eq__" [rely "self", typed "other" (rely "object")] (rely "bool"))
    (block (plain "if " ++ cls "other" ++ plain " is not " ++ cls "self" ++ plain ":")
        (line (returns (rely "NotImplemented"))) ++
      line (assign both (commas [rely "self", rely "other"])) ++
      block (plain "while " ++ rely "_node" ++ plain " is not None and " ++ rely "_other" ++
          plain " is not None:")
        ((if others.isEmpty then []
          else block (plain "if " ++ fields "_node" ++ plain " != " ++ fields "_other" ++ plain ":")
            (line (returns (plain "False")))) ++
          line (assign both (commas [next c "_node", next c "_other"]))) ++
      line (returns (rely "_node" ++ plain " is " ++ rely "_other")))

/-- A field within the text that shows a node. -/
def hole (name : String) : Phrase :=
  plain (name ++ "=\x7b") ++ attr (rely "_node") name ++ plain "!r\x7d"

def showLines (c : Chain) : Lines :=
  let opening := String.join (c.wrappers.map (globalName · ++ "(value="))
  let closing := String.join (c.wrappers.map fun _ => ")")
  let head := commas (c.before.map (hole ·.1) ++ [plain (c.link ++ "=" ++ opening)])
  let tail := c.behind.flatMap fun f => plain ", " ++ hole f.1
  block (method "__repr__" [rely "self"] (rely "str"))
    (line (assign (commas [rely "_parts", rely "_tails"]) (plain "[], []")) ++
      loop
        (append "_parts" (plain "f\"\x7b" ++ attr (attr (rely "_node") "__class__") "__qualname__" ++
            plain "\x7d(" ++ head ++ plain "\"") ++
          append "_tails" (plain ("f\"" ++ closing) ++ tail ++ plain ")\"") ++
          line (assign (rely "_node") (next c "_node"))) ++
      append "_parts" (plain "\"None\"") ++
      line (call (attr (rely "_parts") "extend") [call (rely "reversed") [rely "_tails"]]) ++
      line (returns (call (plain "\"\".join") [rely "_parts"])))

def methods (s : Schema) (c : Chain) (name : String) : Lines :=
  packLines s c ++ blank 1 ++ unpackLines s c name ++ blank 1 ++ sizeLines s c ++ blank 1 ++
    equalLines c ++ blank 1 ++ showLines c

end Chain

def plainMethods (s : Schema) (t : TypeInfo) (name : String) (fields : List (String × Decl)) :
    Lines :=
  let packs := fields.flatMap fun (field, f) =>
    line (packStatement s f.toShape (attr (rely "self") field))
  block packHeader (if packs.isEmpty then line (plain "pass") else packs) ++ blank 1 ++
    unpackMethod name
      (line (returns (call (rely "cls") (fields.map fun f => unpackExpression s f.2.toShape)))) ++
    sizeMethod t (fields.map fun (field, f) => sizeTerm s f.toShape (attr (rely "self") field))

def structClass (s : Schema) (c : Config) (t : TypeInfo) (d : StructType) : ClassText :=
  let name := globalName t.name
  let methods :=
    match s.chain? d with
    | some chain => Chain.methods s chain name
    | none => plainMethods s t name d.plan
  { decorators := [dataclass]
    name
    parents := bases "XdrStruct" t
    fields := d.plan.map fun (field, f) => ⟨field, hint s f.toShape, none⟩
    values := []
    body := classAttributes c t ++ methods }

def labelLiteral (p : UnionPlan) (v : Int) : Phrase :=
  match p.enum with
  | some e =>
    match e.variant? v with
    | some variant => attr (own (globalName e.name)) (enumMemberName variant)
    | none => plain (toString v)
  | none =>
    plain (if p.disc.base = .builtin .bool then (if v = 0 then "False" else "True") else toString v)

def construct (s : Schema) (name : String) (a : ArmPlan) : Phrase :=
  let payload := if a.decl.isVoid then [] else [unpackExpression s a.decl.toShape]
  call (attr (own name) a.attr) (payload ++ [rely "_disc"])

/-- One test for each arm, in order. -/
def dispatch (s : Schema) (p : UnionPlan) (name : String) : Lines :=
  ((p.arms.filter (!·.isDefault)).zipIdx).flatMap fun (a, i) =>
    let tests := a.labels.map fun v => rely "_disc" ++ plain " == " ++ labelLiteral p v
    block (plain (if i = 0 then "if " else "elif ") ++ join " or " tests ++ plain ":")
      (line (returns (construct s name a)))

/-- What is done with a discriminant that no arm lists. -/
def otherwise (s : Schema) (p : UnionPlan) (t : TypeInfo) (name : String) : Lines :=
  match p.arms.find? (·.isDefault) with
  | some a => line (returns (construct s name a))
  | none =>
    line (plain "raise " ++ call (support "UnknownDiscriminantError")
      [plain (Text.quote t.name), rely "_disc", attr (rely "r") "offset" ++ plain s!" - {p.discSize}"])

def armClass (s : Schema) (p : UnionPlan) (t : TypeInfo) (a : ArmPlan) : ClassText :=
  let name := globalName t.name
  let field (name : String) := attr (rely "self") name
  let default :=
    match a.isDefault, a.labels with
    | false, [v] => some (labelLiteral p v)
    | _, _ => none
  let cases := sortNumbers (p.cases a)
  let payload := a.payload?.toList
  { decorators :=
      [plain "@" ++ call (attr (own name) "variant") [plain ("\"" ++ a.attr ++ "\"")], dataclass]
    name := s!"_{name}_{a.attr}"
    parents := [classHint name t.holdsOpaque]
    fields := payload.map (fun field => ⟨field, hint s a.decl.toShape, none⟩) ++
      [⟨p.discField, hint s p.disc, default⟩]
    values := []
    body := line (assign (plain "CASES") (call (rely "frozenset")
        (if cases.isEmpty then []
          else [plain ("\x7b" ++ String.intercalate ", " (cases.map toString) ++ "\x7d")]))) ++
      (if a.isDefault then line (plain "DEFAULT = True") else []) ++ blank 1 ++
      block packHeader
        (line (call (field "_check_discriminant") [field p.discField]) ++
          line (packStatement s p.disc (field p.discField)) ++
          payload.flatMap fun name => line (packStatement s a.decl.toShape (field name))) ++
      sizeMethod t ((p.discSize, none) ::
        payload.map fun name => sizeTerm s a.decl.toShape (field name)) }

def unionClass (s : Schema) (c : Config) (t : TypeInfo) (p : UnionPlan) : ClassText :=
  let name := globalName t.name
  { decorators := []
    name
    parents := bases "XdrUnion" t
    fields := []
    values := []
    body := classAttributes c t ++
      unpackMethod name
        (line (assign (rely "_disc") (unpackExpression s p.disc)) ++ dispatch s p name ++
          otherwise s p t name) }

end Xdr.Emit
