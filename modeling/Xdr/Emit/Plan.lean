import Xdr.Emit.Naming

/-!
# Plans of classes

What the classes of a generated module are made of: the names of their fields, the arms of a union,
and the link by which a struct forms a list.
-/

namespace Xdr

open Naming

/-- The field by which a struct holds the next node of a list: its position, and the typedefs around
the optional, outermost first. -/
structure ChainLink where
  position : Nat
  wrappers : List String
deriving DecidableEq

namespace Schema

/-- The typedefs around a shape, and the shape within them. -/
def unwrap (s : Schema) : Nat → Shape → List String × Shape
  | 0, shape => ([], shape)
  | n + 1, shape =>
    match shape.arity, shape.base with
    | .scalar, .named name =>
      match s.find? name with
      | some ⟨.typedef t, _, _, _, _⟩ =>
        let (wrappers, final) := s.unwrap n t.decl.toShape
        (name :: wrappers, final)
      | _ => ([], shape)
    | _, _ => ([], shape)

/-- The typedefs around an optional of the struct itself, if the shape is one. -/
def selfLink? (s : Schema) (name : String) (shape : Shape) : Option (List String) :=
  let (wrappers, final) := s.unwrap (s.types.length + 1) shape
  if final.arity = .optional && final.base = .named name then some wrappers else none

/-- The last field that links to a struct of the same type. -/
def chainLink? (s : Schema) (t : StructType) : Option ChainLink :=
  (t.fields.zipIdx.filterMap fun (f, i) =>
    (s.selfLink? t.name f.toShape).map (ChainLink.mk i)).getLast?

end Schema

def StructType.plan (t : StructType) : List (String × Decl) :=
  t.fields.map fun f => (memberName (f.name.getD "None"), f)

/-- A list of nodes: the fields before and behind the link, the link, and the typedefs around it. -/
structure Chain where
  before : List (String × Decl)
  link : String
  behind : List (String × Decl)
  wrappers : List String
deriving DecidableEq

def Chain.ofLink (fields : List (String × Decl)) (l : ChainLink) : Chain :=
  ⟨fields.take l.position, ((fields[l.position]?).map (·.1)).getD "",
   fields.drop (l.position + 1), l.wrappers⟩

def Schema.chain? (s : Schema) (t : StructType) : Option Chain :=
  (s.chainLink? t).map (Chain.ofLink t.plan)

structure ArmPlan where
  attr : String
  labels : List Int
  decl : Decl
  isDefault : Bool
deriving DecidableEq

def ArmPlan.payload? (a : ArmPlan) : Option String :=
  if a.decl.isVoid then none else some (memberName (a.decl.name.getD "None"))

structure UnionPlan where
  disc : Shape
  discField : String
  discSize : Nat
  enum : Option EnumType
  arms : List ArmPlan
  explicit : List Int

namespace UnionPlan

def cases (p : UnionPlan) (a : ArmPlan) : List Int :=
  if a.isDefault then p.explicit else a.labels

/-- The arm for a discriminant, the default one if no arm lists it. -/
def select? (p : UnionPlan) (n : Int) : Option ArmPlan :=
  match p.arms.find? fun a => !a.isDefault && a.labels.contains n with
  | some a => some a
  | none => p.arms.find? (·.isDefault)

end UnionPlan

def sortNumbers (xs : List Int) : List Int := (xs.mergeSort (· ≤ ·)).eraseDups

def Schema.unionPlan? (s : Schema) (u : UnionType) : Option UnionPlan := do
  let firsts ← u.arms.mapM (·.labels.head?)
  let disc : Shape := .scalar (s.canonical u.discriminant.toShape).base
  let enum := s.enumOf? u.discriminant.toShape
  let names := variantNames enum u.fallback.isSome firsts
  let explicitArms := (names.zip u.arms).map fun (attr, a) => ⟨attr, a.values, a.decl, false⟩
  return {
    disc
    discField := memberName (u.discriminant.name.getD "None")
    discSize := (s.sizeOf disc).bytes?.getD 0
    enum
    arms := explicitArms ++
      u.fallback.toList.map fun d => ⟨defaultVariant, [], d, true⟩
    explicit := sortNumbers u.labels }

def Schema.exports (s : Schema) : List String :=
  s.constants.map (fun c => globalName c.1) ++
    s.types.flatMap (fun t =>
      match t.definition with
      | .enum e => globalName e.name :: e.variants.map fun v => globalName v.1
      | _ => []) ++
    s.types.filterMap fun t => if t.kind = .enum then none else some (globalName t.name)

end Xdr
