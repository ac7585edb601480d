import Xdr.Analysis.Resolution

/-!
# Unions

A union is checked against the domain of its discriminant: an integer type, `bool` or an enum,
possibly through typedefs.
-/

namespace Xdr

/-- The values that a discriminant can have. -/
inductive Domain
  | enum (e : EnumType)
  | integer (b : Builtin) (low high : Int)
deriving DecidableEq

def Definitions.domain? (defs : Definitions) (s : Shape) : Option Domain :=
  match defs.enumOf? s with
  | some e => some (.enum e)
  | none =>
    let c := defs.canonical s
    match c.arity, c.base with
    | .scalar, .builtin b => b.range?.map fun r => .integer b r.1 r.2
    | _, _ => none

namespace Domain

/-- The values one by one, where a union can handle them all. -/
def finite? : Domain → Option (List Int)
  | enum e => some e.values
  | integer .bool _ _ => some [0, 1]
  | integer .. => none

def admits (bindings : Bindings) (domain : Domain) (label : Ast.Value) (v : Int) : Bool :=
  match domain with
  | .integer _ low high => low ≤ v && v ≤ high
  | .enum e =>
    let foreign :=
      match label.name?.bind bindings.find? with
      | some s => s.kind = .enumValue && s.owner != some e.name
      | none => false
    !foreign && e.values.contains v

end Domain

def checkLabels (bindings : Bindings) (union ty : String) (domain : Domain) :
    List Int → List (Ast.Value × Int) → List Int × List Finding
  | seen, [] => (seen, [])
  | seen, (label, v) :: rest =>
    if !domain.admits bindings label v then
      let (seen, findings) := checkLabels bindings union ty domain seen rest
      (seen, ⟨.labelOutOfDomain label.spelling ty, label.loc⟩ :: findings)
    else if seen.contains v then
      let (seen, findings) := checkLabels bindings union ty domain seen rest
      (seen, ⟨.duplicateLabel label.spelling union, label.loc⟩ :: findings)
    else checkLabels bindings union ty domain (v :: seen) rest

def labelPairs (d : Ast.UnionDef) (u : UnionType) : List (Ast.Value × Int) :=
  (d.arms.zip u.arms).flatMap fun p => p.1.labels.zip p.2.values

/-- Arms with the name of the discriminant. -/
def namesakes (d : Ast.UnionDef) (u : UnionType) : List Finding :=
  (d.arms.map (·.decl) ++ d.fallback.toList).filterMap fun a =>
    match a.name with
    | some name =>
      if u.discriminant.name = some name then
        some ⟨.armNamedLikeDiscriminant name u.name, a.nameSpan <|> a.loc⟩
      else none
    | none => none

/-- The variants that select no arm of a union without a default. -/
def unhandled (domain : Domain) (u : UnionType) (seen : List Int) : List String :=
  match domain, u.fallback with
  | .enum e, none => (e.variants.filter fun v => !seen.contains v.2).map (·.1)
  | _, _ => []

def unionFindings (bindings : Bindings) (defs : Definitions) (d : Ast.UnionDef) (u : UnionType) :
    List Finding :=
  match defs.domain? u.discriminant.toShape with
  | none =>
    [⟨.badDiscriminant u.name u.discriminant.spelling,
      d.discriminant.ty.loc <|> d.discriminant.loc⟩]
  | some domain =>
    let (seen, findings) :=
      checkLabels bindings u.name u.discriminant.base.spelling domain [] (labelPairs d u)
    let missing := unhandled domain u seen
    findings ++ namesakes d u ++
      if missing.isEmpty then [] else [⟨.unhandledVariants u.name missing, d.nameSpan⟩]

def Definitions.unionFindings (defs : Definitions) (bindings : Bindings)
    (spec : Ast.Specification) : List Finding :=
  spec.definitions.flatMap fun
    | .union d =>
      match defs.find? d.name with
      | some (.union u) => Xdr.unionFindings bindings defs d u
      | _ => []
    | _ => []

end Xdr
