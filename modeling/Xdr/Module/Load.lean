import Xdr.Emit.Expression
import Xdr.Module.Imports
import Xdr.Module.Globals

/-!
# Loading a module

Loading binds names in the order of the module's text: the constants, the enums with their values,
the other types, and the list of public names.
-/

namespace Xdr

open Naming

inductive LoadFault
  | nullCharacter
  /-- The text does not follow the grammar of the generated language. -/
  | malformed
  | misplacedLine
  | noSupport
  | unlabelledArm
  | statement (f : Fault)
deriving DecidableEq

/-- The one name that no code can bind. -/
def unbindable : String := "__debug__"

def Definition.boundNames : Definition → List String
  | .enum e => e.name :: e.variants.map (·.1)
  | .struct t => t.name :: t.fields.filterMap (·.name)
  | .typedef t => [t.name]
  | .union u =>
    u.name :: u.discriminant.name.toList ++ u.arms.filterMap (·.decl.name) ++
      (u.fallback.bind (·.name)).toList

/-- What is found before any line of the text runs. -/
def checkText (s : Schema) (c : Config) : Except LoadFault Imports.Support :=
  let bound := s.constants.map (·.1) ++ s.types.flatMap (·.definition.boundNames)
  if c.headerComment.toList.contains '\x00' then .error .nullCharacter
  else if Imports.hasKeyword c.runtimeModule then .error .malformed
  else if c.runtimeModule.toList.contains '\n' then .error .misplacedLine
  else if bound.contains unbindable then .error .malformed
  else
    match Imports.support? c.runtimeModule with
    | some found => .ok found
    | none => .error .noSupport

/-- Fields of one name are one: it stands where the first stood and is the last of them. -/
def mergeFields : List Field → List Field
  | [] => []
  | f :: rest =>
    let last := ((f :: rest).filter (·.name = f.name)).getLast?.getD f
    last :: (mergeFields rest).filter (·.name != f.name)

/-- No field without a default stands behind one that has a default. -/
def defaultsLast : List Field → Bool
  | [] => true
  | f :: rest => defaultsLast rest && (f.default.isNone || rest.all (·.default.isSome))

def isQualifiedHint (hint : String) : Bool := hint.startsWith "_t." || hint.startsWith "_xdr."

/-- The call that makes an instance, as the text about a class gives it. -/
def constructorText (name : String) (fields : List Field) : String :=
  let argument (f : Field) :=
    f.name ++ ": " ++ Text.quote f.hint ++ ((f.default.map fun v => " = " ++ v.plainText).getD "")
  name ++ "(" ++ String.intercalate ", " (fields.map argument) ++ ")"

def variantText (name : String) : String :=
  name ++ "(names=None, *, module=None, qualname=None, type=None, start=1, boundary=None)"

/-- Two fields of a constructor that are called like the instance that it makes: the one by the usual
name for that, the other by the name that is used instead. -/
def hidesInstance (fields : List String) : Bool :=
  fields.contains "self" && fields.contains "__dataclass_self__"

namespace Globals

/-- A field of a class with its default. A field that finds an attribute of its name in the class
takes that as its default, which must not be changeable. While its fields are made, a class looks up
the module by its name, which then must not have been bound to anything else. -/
def complete (s : Globals) (h : ClassHead) (f : Field) : Except Fault Field :=
  let default := s.headAttr? h f.name
  let isModuleLost := s.names.any (·.1 = "__name__") || (h.number? "__module__").isSome
  if isModuleLost && !isQualifiedHint f.hint then .error .noAttribute
  else
    match default with
    | some v =>
      if Inherited.changeable.contains v.typeName || s.isSpoilt v "__eq__" then .error .badValue
      else if s.isSpoilt v "__class__" then .error .noAttribute
      else .ok { f with default }
    | none => .ok { f with default }

/-- The fields as the constructor takes them, with their defaults looked up. -/
def completeAll (s : Globals) (h : ClassHead) (fields : List Field) : Except Fault (List Field) := do
  let fields ← (mergeFields fields).mapM (s.complete h)
  if defaultsLast fields then return fields else throw .notApplicable

/-- Whether instances can be read: not if a type took the name of what makes class methods. -/
def readability (s : Globals) : Except Fault Bool := do
  match ← s.builtin "classmethod" with
  | none => return true
  | some v =>
    let _ ← s.call v [.thing "function"] []
    return false

def layoutAttrs (t : TypeInfo) (c : Config) : List (String × Value) :=
  [("WIRE_SIZE", (t.size.bytes?.map fun n => .int n).getD .null),
   ("STRICT_PADDING", .bool c.strictPadding)]

/-- The text about a class, which is about its constructor. A text that the body gives is kept unless
it counts as false. Something under the names that lead to a constructor is taken for it, which only a
variant of an enum stands; and a default may be one that cannot be shown. -/
def classText (s : Globals) (h : ClassHead) (fields : List Field) : Except Fault Value := do
  if let some v := h.number? "__doc__" then
    if ← s.truth v then return v
  let name := h.key.bodyName
  let found (attr : String) := h.number? attr <|> s.special? h.key attr
  if (found "__signature__").isSome then throw .notApplicable
  match found "__wrapped__" with
  | some (.member _ _ _) => return .str (variantText name)
  | some _ => throw .badValue
  | none =>
    if (h.number? "__new__").isSome || (h.number? "__init__").isSome then throw .notApplicable
    if fields.any fun f => f.default.any (s.isSpoilt · "__repr__") then throw .notApplicable
    return .str (constructorText name fields)

/-- The class once its fields are turned into methods. -/
def finish (s : Globals) (h : ClassHead) (fields : List Field) : Except Fault ClassHead := do
  let always := [("__doc__", ← s.classText h fields), ("__dataclass_fields__", .thing "dict")] ++
    ((h.number? "__abstractmethods__").map fun _ =>
      ("__abstractmethods__", Value.thing "frozenset")).toList
  return { h with
    fields
    own := always ++ h.own.filter (fun a => !always.any (·.1 = a.1)) ++
      [("__init__", .thing "function"), ("__eq__", .thing "function"),
       ("__repr__", .thing "function"), ("__match_args__", .thing "tuple"),
       ("__hash__", if h.kind = .typedef then .thing "function" else .null)] }

def loadRecord (c : Config) (s : Globals) (t : TypeInfo) (kind : ClassKind) (fields : List Field) :
    Except Fault Globals := do
  let key := ClassKey.type t.name
  let h : ClassHead :=
    { key, kind, isGeneric := t.holdsOpaque, isReadable := ← s.readability
      own := layoutAttrs t c }
  let fields ← s.completeAll h fields
  return (s.setHead (← s.finish h fields)).bind (globalName t.name) (.cls key)

/-- What a label stands for when its arm is made. -/
def label (s : Globals) (key : ClassKey) (p : UnionPlan) (n : Int) : Except Fault Value :=
  match p.enum.bind fun e => (e.variant? n).map (e, ·) with
  | some (e, variant) => do
    s.attr (← s.resolve key e.name) (privateName key.bodyName (enumMemberName variant))
  | none => .ok (if p.disc.base = .builtin .bool then .bool (n != 0) else .int n)

/-- An arm with a single label needs no discriminant. -/
def discriminantDefault (s : Globals) (key : ClassKey) (p : UnionPlan) (a : ArmPlan) :
    Except Fault (Option Value) :=
  match a.isDefault, a.labels with
  | false, [n] => (s.label key p n).map some
  | _, _ => .ok none

/-- The discriminants that an arm lists make a set, unless something took the place of what makes
it. `taken` is what the body of the arm itself has bound to that name. -/
def caseSet (s : Globals) (taken : Option Value) (cases : List Int) :
    Except Fault (Option (List Int)) := do
  match taken <|> (← s.builtin "frozenset") with
  | none => return some cases
  | some v =>
    let _ ← s.call v (if cases.isEmpty then [] else [.thing "set"]) []
    return none

/-- Attributes of a class that cannot be set, with the fault of trying. -/
def fixedAttrs : List (String × Fault) :=
  [("__name__", .notApplicable), ("__qualname__", .notApplicable), ("__bases__", .notApplicable),
   ("__class__", .notApplicable), ("__base__", .noAttribute), ("__mro__", .noAttribute),
   ("__dict__", .noAttribute), ("__basicsize__", .noAttribute), ("__itemsize__", .noAttribute),
   ("__flags__", .noAttribute), ("__dictoffset__", .noAttribute),
   ("__weakrefoffset__", .noAttribute), ("__text_signature__", .noAttribute)]

/-- Names that the making of a class takes for itself. -/
def unbindableInBody : List String :=
  ["__annotations__", "__classcell__", "__qualname__", "__slots__"]

/-- The body of an arm can be made into a class. What it binds must be fit for its name, and is told
its name there. An earlier arm under the name of what makes a union generic comes between, and one
under the name of what is told of new classes is called without arguments. -/
def checkBody (s : Globals) (h : ClassHead) : Except Fault Unit := do
  if h.isGeneric && (s.special? h.key "__class_getitem__").isSome then throw .notApplicable
  if unbindableInBody.any fun name => (h.number? name).isSome then throw .notApplicable
  if h.own.any fun a => s.isSpoilt a.2 "__set_name__" then throw .untold
  if let some arm := s.special? h.key "__init_subclass__" then
    let _ ← s.call arm [] []

def loadArm (schema : Schema) (t : TypeInfo) (p : UnionPlan) (s : Globals) (a : ArmPlan) :
    Except Fault Globals := do
  let key := ClassKey.arm t.name a.attr
  let field (name : String) := privateName key.bodyName name
  let disc := field p.discField
  let default ← s.discriminantDefault key p a
  let taken := if disc = "frozenset" then default else none
  let cases ← s.caseSet taken (p.cases a)
  let payload := a.payload?.toList.map fun name =>
    (⟨field name, Emit.typeHint schema a.decl.toShape, none⟩ : Field)
  let h : ClassHead :=
    { key, kind := .arm, isGeneric := t.holdsOpaque, cases
      own := default.toList.map (disc, ·) ++ if a.isDefault then [("DEFAULT", .bool true)] else [] }
  s.checkBody h
  if (s.special? key "__dataclass_fields__").isSome then throw .noAttribute
  let fields ← s.completeAll h (payload ++ [⟨disc, Emit.typeHint schema p.disc, default⟩])
  let callsBack := (s.headAttr? h "__post_init__").isSome
  let made := { (← s.finish h fields) with callsBack }
  let named :=
    { made with
      own := [("__name__", .str a.attr), ("__qualname__", .str key.qualifiedName)] ++ made.own }
  match fixedAttrs.lookup a.attr, s.head? (.type t.name) with
  | some f, _ => throw f
  | none, none => throw .noAttribute
  | none, some union =>
    let union := { union with own := (a.attr, .cls key) :: union.own }
    return ((s.setHead union).setHead named).bind key.bodyName (.cls key)

def loadUnion (schema : Schema) (c : Config) (s : Globals) (t : TypeInfo) (p : UnionPlan) :
    Except Fault Globals := do
  let key := ClassKey.type t.name
  let h : ClassHead :=
    { key, kind := .union, isGeneric := t.holdsOpaque, isReadable := ← s.readability
      own := layoutAttrs t c }
  let s := (s.setHead h).bind (globalName t.name) (.cls key)
  let s ← p.arms.foldlM (loadArm schema t p) s
  return s.unbind (p.arms.map fun a => (ClassKey.arm t.name a.attr).bodyName)

def loadEnum (s : Globals) (e : EnumType) : Except Fault Globals := do
  let made ← EnumClass.ofEnum e
  let s := { s with enums := s.enums ++ [made] }.bind (globalName e.name) (.cls (.enum e.name))
  e.variants.foldlM
    (fun s (variant, _) => do
      let v ← s.attr (← s.lookup (globalName e.name)) (enumMemberName variant)
      return s.bind (globalName variant) v)
    s

def loadType (schema : Schema) (c : Config) (s : Globals) (t : TypeInfo) : Except LoadFault Globals :=
  let statement (r : Except Fault Globals) : Except LoadFault Globals := r.mapError .statement
  let field (name : String) (d : Shape) : Field :=
    ⟨privateName (globalName t.name) name, Emit.typeHint schema d, none⟩
  match t.definition with
  | .enum _ => .ok s
  | .struct d =>
    let kind := if (schema.chain? d).isSome then ClassKind.chain else .struct
    if hidesInstance (d.plan.map (·.1)) then .error .malformed
    else statement (s.loadRecord c t kind (d.plan.map fun (name, f) => field name f.toShape))
  | .typedef d => statement (s.loadRecord c t .typedef [field "value" d.decl.toShape])
  | .union u =>
    match schema.unionPlan? u with
    | none => .error .unlabelledArm
    | some p =>
      if p.arms.any fun a => hidesInstance (p.discField :: a.payload?.toList) then .error .malformed
      else statement (s.loadUnion schema c t p)

def supportValue : Imports.Support → Value
  | .whole => .library .support
  | .unmeasured => .library .roots
  | .foreign => .thing "module"

def initial (support : Imports.Support) : Globals :=
  { names :=
      [("annotations", .thing "_Feature"), ("_dc", .library .records), ("_t", .library .hints),
       ("_xdr", supportValue support),
       ("__doc__", .null), ("__loader__", .null), ("__package__", .null), ("__spec__", .null)] }

def load (schema : Schema) (c : Config) (support : Imports.Support) : Except LoadFault Globals := do
  let constants := schema.constants.foldl
    (fun s (name, n) => s.bind (globalName name) (.int n)) (initial support)
  if support = .foreign && !schema.types.isEmpty then throw (.statement .noAttribute)
  let enums ← schema.types.foldlM
    (fun s t =>
      match t.definition with
      | .enum e => (s.loadEnum e).mapError .statement
      | _ => .ok s)
    constants
  let types ← schema.types.foldlM (loadType schema c) enums
  return if c.exportAll then types.bind "__all__" (.list (schema.exports.map .str)) else types

end Globals

end Xdr
