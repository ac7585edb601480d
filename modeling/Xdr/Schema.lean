import Xdr.Types

/-!
# Schemas

What an accepted specification means.
-/

namespace Xdr

/-- The type that a shape repeats: a builtin one, or one that the specification defines. -/
inductive Base
  | builtin (b : Builtin)
  | named (name : String)
deriving DecidableEq

namespace Base

def spelling : Base → String
  | builtin b => b.spelling
  | named name => name

def isBytes : Base → Bool
  | builtin b => b.isBytes
  | named _ => false

end Base

/-- A type with its arity. `length` is the count of a fixed array, or the bound of a variable one
when it has a bound. -/
structure Shape where
  base : Base
  arity : Arity
  length : Option Nat
deriving DecidableEq

namespace Shape

def scalar (base : Base) : Shape := ⟨base, .scalar, none⟩

def spelling (s : Shape) : String :=
  let bound := (s.length.map toString).getD ""
  match s.arity with
  | .scalar => s.base.spelling
  | .fixed => s.base.spelling ++ "[" ++ bound ++ "]"
  | .varying => s.base.spelling ++ "<" ++ bound ++ ">"
  | .optional => s.base.spelling ++ "*"

def count (s : Shape) : Nat := s.length.getD 0

def isArray (s : Shape) : Bool :=
  (s.arity = .fixed || s.arity = .varying) && !s.base.isBytes

def isVoid (s : Shape) : Bool := s.base = .builtin .void

def isOpaque (s : Shape) : Bool := s.base = .builtin .opaqueBytes

end Shape

structure Decl extends Shape where
  name : Option String
deriving DecidableEq

/-- A case label: its number, and its name when it was written as one. -/
structure Label where
  value : Int
  name : Option String
deriving DecidableEq

structure Arm where
  labels : List Label
  decl : Decl
deriving DecidableEq

def Arm.values (a : Arm) : List Int := a.labels.map (·.value)

structure EnumType where
  name : String
  variants : List (String × Int)
deriving DecidableEq

namespace EnumType

def values (e : EnumType) : List Int := e.variants.map (·.2)

def variant? (e : EnumType) (v : Int) : Option String :=
  (e.variants.find? (·.2 = v)).map (·.1)

end EnumType

structure StructType where
  name : String
  fields : List Decl
deriving DecidableEq

structure TypedefType where
  name : String
  decl : Decl
deriving DecidableEq

structure UnionType where
  name : String
  discriminant : Decl
  arms : List Arm
  fallback : Option Decl
deriving DecidableEq

namespace UnionType

def labels (u : UnionType) : List Int := u.arms.flatMap Arm.values

def declarations (u : UnionType) : List Decl := u.arms.map (·.decl) ++ u.fallback.toList

end UnionType

inductive Definition
  | enum (e : EnumType)
  | struct (s : StructType)
  | typedef (t : TypedefType)
  | union (u : UnionType)
deriving DecidableEq

namespace Definition

def name : Definition → String
  | enum e => e.name
  | struct s => s.name
  | typedef t => t.name
  | union u => u.name

def kind : Definition → Kind
  | enum _ => .enum
  | struct _ => .struct
  | typedef _ => .typedef
  | union _ => .union

def members : Definition → List Decl
  | enum _ => []
  | struct s => s.fields
  | typedef t => [t.decl]
  | union u => u.discriminant :: u.declarations

end Definition

abbrev Definitions := List Definition

namespace Definitions

def find? (defs : Definitions) (name : String) : Option Definition :=
  List.find? (·.name = name) defs

def follow (defs : Definitions) : Nat → Shape → Shape
  | 0, s => s
  | n + 1, s =>
    match s.arity, s.base with
    | .scalar, .named name =>
      match defs.find? name with
      | some (.typedef t) => follow defs n t.decl.toShape
      | _ => .scalar (.named name)
    | _, _ => s

def canonical (defs : Definitions) (s : Shape) : Shape := defs.follow (defs.length + 1) s

def enumOf? (defs : Definitions) (s : Shape) : Option EnumType :=
  let c := defs.canonical s
  match c.arity, c.base with
  | .scalar, .named name =>
    match defs.find? name with
    | some (.enum e) => some e
    | _ => none
  | _, _ => none

end Definitions

structure TypeInfo where
  definition : Definition
  canonical : Shape
  size : Size
  holdsOpaque : Bool
  dependencies : List String
deriving DecidableEq

namespace TypeInfo

def name (t : TypeInfo) : String := t.definition.name

def kind (t : TypeInfo) : Kind := t.definition.kind

end TypeInfo

/-- The wire size of a shape, when the sizes of the defined types that it depends on are known.
Behind a presence flag or a length no size is asked for. -/
def Shape.size? (sizeOf : String → Option Size) (s : Shape) : Option Size :=
  let element : Option Size :=
    match s.base with
    | .builtin b => some ((b.size?.map Size.fixed).getD .varying)
    | .named name => sizeOf name
  match s.arity with
  | .optional => some .varying
  | .varying => some .varying
  | .scalar => if s.base.isBytes then some .varying else element
  | .fixed =>
    if s.isOpaque then some (.fixed (padded s.count))
    else if s.base.isBytes then some .varying
    else
      match element with
      | some (.fixed n) => some (.fixed (n * s.count))
      | other => other

def Shape.sizeWith (sizeOf : String → Size) (s : Shape) : Size :=
  (s.size? fun name => some (sizeOf name)).getD .varying

theorem Shape.sizeWith_eq (sizeOf : String → Size) (s : Shape) :
    s.sizeWith sizeOf =
      let element : Size :=
        match s.base with
        | .builtin b => (b.size?.map Size.fixed).getD .varying
        | .named name => sizeOf name
      match s.arity with
      | .optional => .varying
      | .varying => .varying
      | .scalar => if s.base.isBytes then .varying else element
      | .fixed =>
        if s.isOpaque then .fixed (padded s.count)
        else if s.base.isBytes then .varying
        else
          match element with
          | .fixed n => .fixed (n * s.count)
          | .varying => .varying := by
  obtain ⟨base, arity, length⟩ := s
  cases base with
  | builtin b => cases arity <;> cases b <;> rfl
  | named name =>
    cases arity with
    | fixed => cases h : sizeOf name <;> simp [sizeWith, size?, isOpaque, Base.isBytes, h]
    | _ => rfl

/-- An accepted specification: its constants and its types, both in the order of the text. -/
structure Schema where
  constants : List (String × Int)
  types : List TypeInfo
deriving DecidableEq

namespace Schema

def find? (s : Schema) (name : String) : Option TypeInfo := s.types.find? (·.name = name)

def definitions (s : Schema) : Definitions := s.types.map (·.definition)

def canonical (s : Schema) (shape : Shape) : Shape :=
  match shape.arity, shape.base with
  | .scalar, .named name => ((s.find? name).map (·.canonical)).getD shape
  | _, _ => shape

def sizeOf (s : Schema) (shape : Shape) : Size :=
  shape.sizeWith fun name => ((s.find? name).map (·.size)).getD .varying

def holdsOpaque (s : Schema) (shape : Shape) : Bool :=
  match shape.base with
  | .builtin b => b = .opaqueBytes
  | .named name => ((s.find? name).map (·.holdsOpaque)).getD false

def enumOf? (s : Schema) (shape : Shape) : Option EnumType :=
  let c := s.canonical shape
  match c.arity, c.base with
  | .scalar, .named name =>
    match s.find? name with
    | some ⟨.enum e, _, _, _, _⟩ => some e
    | _ => none
  | _, _ => none

end Schema

end Xdr
