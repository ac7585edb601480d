import Xdr.Text.Span
import Xdr.Types

/-!
# Definitions as written

The definitions of a specification in the order of the text. Nothing is looked up yet: a type is
mentioned by the name or builtin that was written, a number by a literal or a name.
-/

namespace Xdr.Ast

inductive Value
  | literal (loc : Option Span) (value : Int) (text : String)
  | reference (loc : Option Span) (name : String)
deriving DecidableEq

namespace Value

def loc : Value → Option Span
  | literal loc _ _ => loc
  | reference loc _ => loc

def spelling : Value → String
  | literal _ value text => if text.isEmpty then toString value else text
  | reference _ name => name

def name? : Value → Option String
  | literal .. => none
  | reference _ name => some name

end Value

inductive Base
  | builtin (b : Builtin)
  | named (name : String)
  | inlineBody (loc : Option Span) (kind : String)
deriving DecidableEq

/-- A type with its arity; `size` is the length of a fixed array or the bound of a variable one. -/
structure TypeRef where
  loc : Option Span
  base : Base
  arity : Arity
  size : Option Value
deriving DecidableEq

structure Declaration where
  loc : Option Span
  name : Option String
  ty : TypeRef
  nameSpan : Option Span
deriving DecidableEq

structure ConstDef where
  loc : Option Span
  name : String
  value : Value
  nameSpan : Option Span
deriving DecidableEq

structure EnumVariant where
  loc : Option Span
  name : String
  value : Value
  nameSpan : Option Span
deriving DecidableEq

structure EnumDef where
  loc : Option Span
  name : String
  variants : List EnumVariant
  nameSpan : Option Span
deriving DecidableEq

structure StructDef where
  loc : Option Span
  name : String
  fields : List Declaration
  nameSpan : Option Span
deriving DecidableEq

/-- `typedef declaration;` The declared name is the name of the type. -/
structure TypedefDef where
  loc : Option Span
  name : String
  decl : Declaration
  nameSpan : Option Span
deriving DecidableEq

structure UnionArm where
  loc : Option Span
  labels : List Value
  decl : Declaration
deriving DecidableEq

structure UnionDef where
  loc : Option Span
  name : String
  discriminant : Declaration
  arms : List UnionArm
  fallback : Option Declaration
  nameSpan : Option Span
deriving DecidableEq

inductive Definition
  | const (d : ConstDef)
  | enum (d : EnumDef)
  | struct (d : StructDef)
  | typedef (d : TypedefDef)
  | union (d : UnionDef)
deriving DecidableEq

namespace Definition

def name : Definition → String
  | const d => d.name
  | enum d => d.name
  | struct d => d.name
  | typedef d => d.name
  | union d => d.name

def nameSpan : Definition → Option Span
  | const d => d.nameSpan
  | enum d => d.nameSpan
  | struct d => d.nameSpan
  | typedef d => d.nameSpan
  | union d => d.nameSpan

def kind : Definition → Kind
  | const _ => .const
  | enum _ => .enum
  | struct _ => .struct
  | typedef _ => .typedef
  | union _ => .union

end Definition

def Definition.declarations : Definition → List Declaration
  | struct d => d.fields
  | typedef d => [d.decl]
  | union d => d.discriminant :: d.arms.map (·.decl) ++ d.fallback.toList
  | _ => []

def Definition.numbers (d : Definition) : List Value :=
  let own :=
    match d with
    | const d => [d.value]
    | enum d => d.variants.map (·.value)
    | union d => d.arms.flatMap (·.labels)
    | _ => []
  own ++ d.declarations.filterMap (·.ty.size)

structure Specification where
  loc : Option Span
  definitions : List Definition
deriving DecidableEq

def Specification.namesOf (s : Specification) (k : Kind) : List String :=
  (s.definitions.filter (·.kind = k)).map (·.name)

end Xdr.Ast
