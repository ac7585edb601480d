import Mathlib
import Xdr.Analysis

/-!
# Well-formed specifications

What a specification must satisfy, said of the definitions as written and without any of the steps of
the analysis: names are distinct, numbers and types are defined and fit where they stand, no type
holds itself by value, and every label of a union selects one arm.
-/

namespace Xdr.Ast

/-- The declarations that hold a value always: fields, targets of typedefs, and discriminants. -/
def Definition.plainDeclarations : Definition → List Declaration
  | const _ => []
  | enum _ => []
  | struct d => d.fields
  | typedef d => [d.decl]
  | union d => [d.discriminant]

/-- The declarations of the arms, the default one last. -/
def UnionDef.armDeclarations (d : UnionDef) : List Declaration :=
  d.arms.map (·.decl) ++ d.fallback.toList

def UnionDef.labels (d : UnionDef) : List Value := d.arms.flatMap (·.labels)

namespace Specification

variable (spec : Specification)

/-- Every name that the definitions introduce, with what it stands for. -/
def bindings : List Binding := spec.definitions.flatMap Bindings.ofDefinition

/-- The number that is written at some place. A literal stands for itself; a name stands for what its
own definition says, so a chain of names ends in a literal or in a predefined constant. -/
inductive Denotes : Value → Int → Prop
  | literal (loc : Option Span) (v : Int) (text : String) : Denotes (.literal loc v text) v
  | predefined (loc : Option Span) {name : String} {v : Int} (h : predefined? name = some v) :
      Denotes (.reference loc name) v
  | named (loc : Option Span) {b : Binding} {x : Value} {v : Int} (hb : b ∈ spec.bindings)
      (hx : b.value = some x) (h : Denotes x v) : Denotes (.reference loc b.name) v

def DefinesType (name : String) : Prop :=
  ∃ b ∈ spec.bindings, b.name = name ∧ b.kind.isType = true

/-- A type that may be mentioned: defined, if it is a name, and supported, if it is none. -/
def Mentionable (allowVoid : Bool) : Base → Prop
  | .inlineBody _ _ => False
  | .builtin b => b ≠ .quadruple ∧ (b = .void → allowVoid = true)
  | .named name => spec.DefinesType name

/-- A declaration of such a type, whose length is a number of 32 bits if it has one. -/
def Declares (allowVoid : Bool) (d : Declaration) : Prop :=
  spec.Mentionable allowVoid d.ty.base ∧
    ∀ size ∈ d.ty.size, ∃ v, spec.Denotes size v ∧ 0 ≤ v ∧ v ≤ 2 ^ 32 - 1

/-- Every value of the first type holds one of the second: an array holds its elements, whatever its
length; an optional value may be absent. -/
def HoldsByValue (a b : String) : Prop :=
  ∃ d ∈ spec.definitions, d.name = a ∧
    ∃ m ∈ d.declarations, m.ty.base = .named b ∧ m.ty.arity ≠ .optional

/-- What a mention of a type comes to when scalar mentions of typedefs are followed. -/
inductive Canonical : Base → Arity → Base → Arity → Prop
  | synonym {d : TypedefDef} {base : Base} {arity : Arity} (hd : .typedef d ∈ spec.definitions)
      (h : Canonical d.decl.ty.base d.decl.ty.arity base arity) :
      Canonical (.named d.name) .scalar base arity
  | repeated (base : Base) {arity : Arity} (h : arity ≠ .scalar) : Canonical base arity base arity
  | plain (base : Base) (h : ∀ d, .typedef d ∈ spec.definitions → base ≠ .named d.name) :
      Canonical base .scalar base .scalar

def IsElementArray (base : Base) (arity : Arity) : Prop :=
  (arity = .fixed ∨ arity = .varying) ∧ base ≠ .builtin .opaqueBytes ∧ base ≠ .builtin .string

/-- The elements of a declared array are no arrays themselves. -/
def FlatArray (d : Declaration) : Prop :=
  ∀ element, d.ty.base = .named element → (d.ty.arity = .fixed ∨ d.ty.arity = .varying) →
    ∀ base arity, spec.Canonical (.named element) .scalar base arity → ¬ IsElementArray base arity

def selecting : List Builtin := [.int, .uint, .hyper, .uhyper, .bool]

/-- A declaration that can select an arm: canonically one number of an integer type, of `bool` or of
an enum. -/
def Selects (d : Declaration) : Prop :=
  ∃ base, spec.Canonical d.ty.base d.ty.arity base .scalar ∧
    ((∃ b ∈ selecting, base = .builtin b) ∨ ∃ e, .enum e ∈ spec.definitions ∧ base = .named e.name)

/-- A label with the number `v` belongs to the domain of a discriminant. A label that names a value of
an enum must name one of the discriminant's own enum, if the discriminant has an enum. -/
def InDomain (d : Declaration) (label : Value) (v : Int) : Prop :=
  (∀ b low high, spec.Canonical d.ty.base d.ty.arity (.builtin b) .scalar →
      b.range? = some (low, high) → low ≤ v ∧ v ≤ high) ∧
    ∀ e, .enum e ∈ spec.definitions → spec.Canonical d.ty.base d.ty.arity (.named e.name) .scalar →
      (∃ x ∈ e.variants, spec.Denotes x.value v) ∧
        ∀ f, .enum f ∈ spec.definitions → ∀ x ∈ f.variants, label.name? = some x.name →
          f.name = e.name

def Differ (x y : Value) : Prop := ∀ v, spec.Denotes x v → ¬ spec.Denotes y v

structure UnionWellFormed (d : UnionDef) : Prop where
  selects : spec.Selects d.discriminant
  labels : ∀ label ∈ d.labels, ∃ v, spec.Denotes label v ∧ spec.InDomain d.discriminant label v
  distinct : d.labels.Pairwise spec.Differ
  names : ∀ a ∈ d.armDeclarations, ∀ name, a.name = some name → d.discriminant.name ≠ some name

structure WellFormed : Prop where
  names : (predefined.map (·.1) ++ spec.bindings.map (·.name)).Nodup
  fields : ∀ d, .struct d ∈ spec.definitions → (d.fields.filterMap (·.name)).Nodup
  constants : ∀ d, .const d ∈ spec.definitions →
    ∃ v, spec.Denotes d.value v ∧ -(2 ^ 63) ≤ v ∧ v ≤ 2 ^ 63 - 1
  enumValues : ∀ d, .enum d ∈ spec.definitions → ∀ x ∈ d.variants,
    ∃ v, spec.Denotes x.value v ∧ -(2 ^ 31) ≤ v ∧ v ≤ 2 ^ 31 - 1
  enums : ∀ d, .enum d ∈ spec.definitions →
    d.variants.Pairwise fun x y => spec.Differ x.value y.value
  plain : ∀ d ∈ spec.definitions, ∀ m ∈ d.plainDeclarations, spec.Declares false m
  arms : ∀ d, .union d ∈ spec.definitions → ∀ m ∈ d.armDeclarations, spec.Declares true m
  acyclic : ∀ name, ¬ Relation.TransGen spec.HoldsByValue name name
  arrays : ∀ d ∈ spec.definitions, ∀ m ∈ d.declarations, spec.FlatArray m
  unions : ∀ d, .union d ∈ spec.definitions → spec.UnionWellFormed d

end Specification

end Xdr.Ast
