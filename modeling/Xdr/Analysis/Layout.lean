import Xdr.Analysis.Unions

/-!
# Layout

Sizes are computed in topological order, so that the size of a type is known before it is asked for.
Canonical shapes are looked for once and remembered.
-/

namespace Xdr

abbrev Canonicals := List (String × Shape)

/-- A shape with typedefs replaced by what they stand for. -/
def Shape.canonicalBy (ofType : String → StateT Canonicals Option Shape) (s : Shape) :
    StateT Canonicals Option Shape :=
  match s.arity, s.base with
  | .scalar, .named name => ofType name
  | _, _ => pure s

namespace Definitions

/-- Asks for the canonical shape of a type. What was found before is not looked for again, and what
is found is remembered. Names without a definition have none; `n` bounds the typedefs that are
followed. -/
def ask (defs : Definitions) : Nat → String → StateT Canonicals Option Shape
  | 0, _ => failure
  | n + 1, name => do
    match (← get).lookup name with
    | some s => return s
    | none =>
      let s ←
        match defs.find? name with
        | none => failure
        | some (.typedef t) => t.decl.canonicalBy (defs.ask n)
        | some _ => pure (.scalar (.named name))
      modify ((name, s) :: ·)
      return s

def askAll (defs : Definitions) (names : List String) : StateT Canonicals Option (List Shape) :=
  names.mapM (defs.ask (defs.length + 1))

def canonicals (defs : Definitions) : Canonicals :=
  (((defs.askAll (defs.map (·.name))).run []).map (·.2)).getD []

end Definitions

abbrev Sizes := List (String × Size)

def Sizes.of (sizes : Sizes) (name : String) : Size := (List.lookup name sizes).getD .varying

def Size.sum : List Size → Size
  | [] => .fixed 0
  | .fixed n :: rest =>
    match sum rest with
    | .fixed m => .fixed (n + m)
    | .varying => .varying
  | .varying :: _ => .varying

def Size.common? : List Size → Option Size
  | [] => none
  | s :: rest => if rest.all (· = s) then some s else none

def fieldSizes? (sizeOf : String → Option Size) : List Decl → Option (List Size)
  | [] => some []
  | f :: rest => do
    match ← f.size? sizeOf with
    | .varying => return [.varying]
    | size => return size :: (← fieldSizes? sizeOf rest)

namespace Definitions

def exhaustive (defs : Definitions) (u : UnionType) : Bool :=
  match u.fallback, (defs.domain? u.discriminant.toShape).bind Domain.finite? with
  | some _, _ => true
  | none, some values => values.all u.labels.contains
  | none, none => false

/-- The size of a definition, when the sizes of the types that it asks for are known. A union has a
fixed size when its arms share one and every discriminant selects one of them. -/
def size? (defs : Definitions) (sizeOf : String → Option Size) : Definition → Option Size
  | .enum _ => some (.fixed 4)
  | .typedef t => t.decl.size? sizeOf
  | .struct s => (fieldSizes? sizeOf s.fields).map .sum
  | .union u => do
    let disc ← u.discriminant.size? sizeOf
    let arms ← u.declarations.mapM fun d => d.size? sizeOf
    match disc, Size.common? arms with
    | .fixed n, some (.fixed m) => return if defs.exhaustive u then .fixed (n + m) else .varying
    | _, _ => return .varying

def addSize? (defs : Definitions) (sizes : Sizes) (name : String) : Option Sizes := do
  let size ← defs.size? (List.lookup · sizes) (← defs.find? name)
  return sizes ++ [(name, size)]

def sizes? (defs : Definitions) (order : List String) : Option Sizes := order.foldlM defs.addSize? []

def sizes (defs : Definitions) (order : List String) : Sizes := (defs.sizes? order).getD []

end Definitions

/-- Types with bytes among their own members. -/
def Definitions.directlyOpaque (defs : Definitions) : List String :=
  (defs.filter fun d => d.members.any fun m => m.isOpaque).map (·.name)

def Definitions.opaqueTypes (defs : Definitions) (g : Graph) : List String :=
  g.reversed.closure defs.directlyOpaque true

def Definitions.schema (defs : Definitions) (constants : List (String × Int)) (g : Graph)
    (order : List String) : Schema :=
  let canonicals := defs.canonicals
  let sizes := defs.sizes order
  let bearing := defs.opaqueTypes g
  { constants
    types := defs.map fun d =>
      { definition := d
        canonical := (canonicals.lookup d.name).getD (.scalar (.named d.name))
        size := sizes.of d.name
        holdsOpaque := bearing.contains d.name
        dependencies := g.dependencies d.name true } }

end Xdr
