import Xdr.Module.Inherited
import Xdr.Module.Support
import Xdr.Wire.Form

/-!
# Names and classes of a module

A module binds names to values, some of which are classes. A class has fields, which its constructor
takes by position or by name and does not check, and attributes.
-/

namespace Xdr

open Naming

/-- A field of a class: its name, its annotation, and its default. -/
structure Field where
  name : String
  hint : String
  default : Option Value

inductive ClassKind
  | struct
  | chain
  | typedef
  | union
  | arm
  | root
deriving DecidableEq

/-- The class has no fields and compares nothing itself. -/
def ClassKind.isBare : ClassKind → Bool
  | union => true
  | root => true
  | _ => false

structure ClassHead where
  key : ClassKey
  kind : ClassKind
  isGeneric : Bool := false
  /-- The class can decode: nothing has come between it and the way to make it so. -/
  isReadable : Bool := true
  fields : List Field := []
  own : List (String × Value) := []
  /-- The discriminants that an arm lists; absent when they make no set. -/
  cases : Option (List Int) := some []
  /-- Its constructor calls what an instance has under the name for that, at the end. -/
  callsBack : Bool := false

def ClassHead.ofRoot (r : Root) : ClassHead :=
  { key := .root r, kind := if r = .union then .union else .root, own := r.attrs }

def ClassHead.isRoot (h : ClassHead) : Bool :=
  match h.key with
  | .root _ => true
  | _ => false

def ClassHead.number? (h : ClassHead) (name : String) : Option Value :=
  match h.own.lookup name with
  | some (.int n) => some (.int n)
  | some (.bool b) => some (.bool b)
  | some (.member enum variant n) => some (.member enum variant n)
  | _ => none

def ClassHead.base (h : ClassHead) : Value :=
  match h.key, h.kind with
  | .arm union _, _ => .cls (.type union)
  | .root .all, _ => .thing "type"
  | .root _, _ => .cls (.root .all)
  | _, .typedef => .cls (.root .typedef)
  | _, .union => .cls (.root .union)
  | _, _ => .cls (.root .struct)

def ClassHead.inherited? (h : ClassHead) (name : String) : Option Value :=
  let chain := if h.kind = .chain then Inherited.ofChain else []
  let union := if h.kind = .union || h.kind = .arm then Inherited.ofUnion else []
  let generic := if h.isGeneric then Inherited.ofGeneric else []
  if name = "__name__" || name = "__qualname__" then some (.str h.key.bodyName)
  else if name = "__base__" then some h.base
  else if name = "__dataclass_params__" && h.kind.isBare then none
  else if name = "__weakref__" && h.isRoot then none
  else (chain ++ union ++ generic).lookup name <|> Inherited.ofEvery? name

structure Globals where
  names : List (String × Value) := []
  enums : List EnumClass := []
  heads : List ClassHead := []

namespace Globals

def bind (s : Globals) (name : String) (v : Value) : Globals :=
  { s with names := (name, v) :: s.names.filter (·.1 != name) }

def unbind (s : Globals) (names : List String) : Globals :=
  { s with names := s.names.filter fun n => !names.contains n.1 }

def lookup (s : Globals) (name : String) : Except Fault Value :=
  match s.names.lookup name with
  | some v => .ok v
  | none => .error .unbound

def enum? (s : Globals) (name : String) : Option EnumClass := s.enums.find? (·.name = name)

def enumOf? (s : Globals) : ClassKey → Option EnumClass
  | .enum name => s.enum? name
  | .root .enum => some Root.enumClass
  | _ => none

def head? (s : Globals) (key : ClassKey) : Option ClassHead :=
  match key with
  | .root .enum => none
  | .root r => some (.ofRoot r)
  | _ => s.heads.find? (·.key = key)

def setHead (s : Globals) (h : ClassHead) : Globals :=
  { s with heads := s.heads.filter (·.key != h.key) ++ [h] }

/-- What a name means within the body of a class, where private names are changed. -/
def resolve (s : Globals) (key : ClassKey) (name : String) : Except Fault Value :=
  s.lookup (privateName key.bodyName (globalName name))

/-- What code that mentions a type finds under its name. -/
def mention (s : Globals) (key : ClassKey) (name : String) : Mention :=
  match s.resolve key name with
  | .error f => .nothing f
  | .ok (.cls found) =>
    if found.isEnum then ((s.enumOf? found).map .enum).getD .other else .cls found
  | .ok (.member found _ _) => ((s.enum? found).map .variant).getD .other
  | .ok _ => .other

def builtin (s : Globals) (name : String) : Except Fault (Option Value) :=
  match s.names.lookup name with
  | some v => .ok (some v)
  | none => if s.names.any (·.1 = "__builtins__") then .error .notApplicable else .ok none

def headAttr? (s : Globals) (h : ClassHead) (name : String) : Option Value :=
  let fromUnion :=
    match h.key with
    | .arm union _ => (s.head? (.type union)).bind (·.own.lookup name)
    | _ => none
  let own := h.own.lookup name
  if !h.isRoot && Inherited.ofAllClasses.contains name && (h.number? name).isSome then
    h.inherited? name <|> own
  else own <|> fromUnion <|> h.inherited? name

def classAttr? (s : Globals) (key : ClassKey) (name : String) : Option Value :=
  match s.enumOf? key with
  | some e =>
    if key = .root .enum then Root.enum.origin.lookup name <|> e.attr? name <|> Inherited.ofEnum? name
    else e.attr? name <|> Inherited.ofEnum? name
  | none => (s.head? key).bind (s.headAttr? · name)

def attr? (s : Globals) (v : Value) (name : String) : Option Value :=
  match v with
  | .object key fields =>
    fields.lookup name <|>
      if Inherited.onClassOnly.contains name then none
      else if name = "__class__" then some (.cls key)
      else s.classAttr? key name
  | .member enum variant n =>
    (s.enum? enum).bind (·.valueAttr? name) <|> memberAttr? variant n name <|>
      if name = "__class__" then some (.cls (.enum enum))
      else
        (s.enum? enum).bind (fun e => e.sharedAttr? name <|> e.placeAttr? variant name) <|>
          Inherited.ofPlain? v name
  | .cls key => s.classAttr? key name
  | .library l => l.attr? name <|> Inherited.ofPlain? v name
  | .int n => numberAttr? n name <|> Inherited.ofPlain? v name
  | .bool b => numberAttr? (if b then 1 else 0) name <|> Inherited.ofPlain? v name
  | _ => Inherited.ofPlain? v name

/-- What an arm left under a special name of its union. -/
def special? (s : Globals) (key : ClassKey) (name : String) : Option Value :=
  let union :=
    match key with
    | .arm union _ => ClassKey.type union
    | _ => key
  match s.head? union with
  | some h => if h.kind = .union then h.own.lookup name else none
  | none => none

/-- What the class of an instance has under a special name. -/
def heeded? (s : Globals) (key : ClassKey) (name : String) : Option Value :=
  (s.head? key).bind (·.number? name) <|> s.special? key name

/-- The value is a variant of an enum with a number under a special name. -/
def isSpoilt (s : Globals) (v : Value) (name : String) : Bool :=
  match v with
  | .member enum _ _ => (s.enum? enum).any (·.hasPlain name)
  | _ => false

/-- The class has a number under a special name. -/
def isBroken (s : Globals) (key : ClassKey) (name : String) : Bool :=
  ((s.head? key).bind (·.number? name)).isSome

def truth (s : Globals) (v : Value) : Except Fault Bool :=
  let lacksTruth :=
    match v with
    | .object key _ =>
      (s.heeded? key "__bool__").isSome || (s.heeded? key "__len__").isSome
    | _ => s.isSpoilt v "__bool__"
  if lacksTruth then .error .notApplicable else .ok v.truth

def elements (s : Globals) (v : Value) : Option (List Value) :=
  match v with
  | .cls key => (s.enumOf? key).map (·.all)
  | _ => v.elements?

/-- The fields from arguments by place, then by name, then from defaults. -/
def fillFields : List Field → List Value → List (String × Value) →
    Except Fault (List (String × Value))
  | [], [], [] => .ok []
  | [], _, _ => .error .notApplicable
  | f :: rest, args, named =>
    match args, named.lookup f.name with
    | _ :: _, some _ => .error .notApplicable
    | v :: args, none => (fillFields rest args named).map ((f.name, v) :: ·)
    | [], some v =>
      (fillFields rest [] (named.filter (·.1 != f.name))).map ((f.name, v) :: ·)
    | [], none =>
      match f.default with
      | some v => (fillFields rest [] named).map ((f.name, v) :: ·)
      | none => .error .notApplicable

/-- Names that no instance can have a field under. -/
def unsettable : List (String × Fault) :=
  [("__class__", .notApplicable), ("__weakref__", .noAttribute)]

/-- The class can be called without arguments. -/
def isFillable (s : Globals) (v : Value) : Bool :=
  match v with
  | .cls key => (s.head? key).any fun h => h.fields.all (·.default.isSome)
  | _ => false

/-- The fault of setting a field over what the class has under its name: a variant of an enum with a
number under the names of what sets and deletes attributes. -/
def guardFault? (s : Globals) (h : ClassHead) (field : String) : Option Fault := do
  let v ← h.number? field
  if s.isSpoilt v "__set__" then some .notApplicable
  else if s.isSpoilt v "__delete__" then some .noAttribute
  else none

/-- An arm under the name of what sets attributes is built for each attribute that is set. It is
either built without end, or not to be built from a name and a value. -/
def setterFault (s : Globals) (setter : Value) : Fault :=
  match setter with
  | .cls key => if (s.head? key).any (·.fields.length = 2) then .tooDeep else .notApplicable
  | _ => .notApplicable

/-- Why no instance can be made, whatever the arguments. -/
def obstacle? (s : Globals) (h : ClassHead) : Option Fault :=
  let has (name : String) := (s.special? h.key name).isSome
  if has "__new__" then some .tooDeep
  else if h.kind = .union && (has "__init__" || has "__abstractmethods__") then some .notApplicable
  else none

def construct (s : Globals) (key : ClassKey) (args : List Value) (named : List (String × Value)) :
    Except Fault Value := do
  match s.head? key with
  | none => throw .notApplicable
  | some h =>
    if let some f := s.obstacle? h then throw f
    let fields ← fillFields h.fields args named
    if let some setter := s.heeded? key "__setattr__" then
      if !fields.isEmpty then throw (s.setterFault setter)
    for f in h.fields do
      if (h.number? f.name).isNone then
        if let some fault := unsettable.lookup f.name then throw fault
      if let some fault := s.guardFault? h f.name then throw fault
    let made := Value.object key fields
    if h.callsBack && !((s.attr? made "__post_init__").any s.isFillable) then throw .notApplicable
    return made

def call (s : Globals) (callee : Value) (args : List Value) (named : List (String × Value)) :
    Except Fault Value :=
  match callee with
  | .cls key =>
    match s.enumOf? key with
    | some e => EnumClass.call e.member args named
    | none => s.construct key args named
  | .measurer f => f.call args named
  | _ => .error .notApplicable

/-- What is asked for each attribute of the value. -/
def veil? (s : Globals) (v : Value) : Option Value :=
  match v with
  | .object key _ => s.heeded? key "__getattribute__"
  | _ => none

/-- An attribute of a value, or the fault that there is none. What a class has under the name for all
attributes is called for each of them, and what it has under the name for missing ones is called
where an instance lacks an attribute. -/
def attr (s : Globals) (v : Value) (name : String) : Except Fault Value :=
  match s.veil? v, s.attr? v name, v with
  | some veil, _, _ => s.call veil [.str name] []
  | none, some a, _ => .ok a
  | none, none, .object key _ =>
    match s.heeded? key "__getattr__" with
    | some handler => s.call handler [.str name] []
    | none => .error .noAttribute
  | none, none, _ => .error .noAttribute

/-- An operation on the value gets past what is asked for each attribute. -/
def reachable (s : Globals) (v : Value) (operation : String) : Except Fault Unit := do
  if (s.veil? v).isSome then
    let _ ← s.attr v operation
    throw .notApplicable

/-- A builtin that is called with values of a type: nothing when it is in place, else the fault of
calling what took its place. What comes back from there is never of use. -/
def builtinCall (s : Globals) (name : String) (args : List Value) : Except Fault Unit := do
  match ← s.builtin name with
  | none => return
  | some v =>
    let _ ← s.call v args []
    throw .notApplicable

end Globals

end Xdr
