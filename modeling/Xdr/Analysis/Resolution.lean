import Xdr.Analysis.Constants
import Xdr.Graph
import Xdr.Schema

/-!
# Resolution

Looks up every mentioned type and evaluates every length and label.
-/

namespace Xdr

/-- The outcome of resolving a part of a specification: the part, when it is free of errors. -/
structure Resolved (α : Type) where
  findings : List Finding
  value : Option α

namespace Resolved

def ok {α : Type} (a : α) : Resolved α := ⟨[], some a⟩

def bad {α : Type} (problem : Problem) (span : Option Span) : Resolved α :=
  ⟨[⟨problem, span⟩], none⟩

def map {α β : Type} (f : α → β) (r : Resolved α) : Resolved β := ⟨r.findings, r.value.map f⟩

def both {α β : Type} (a : Resolved α) (b : Resolved β) : Resolved (α × β) :=
  ⟨a.findings ++ b.findings,
   match a.value, b.value with
   | some x, some y => some (x, y)
   | _, _ => none⟩

def all {α : Type} : List (Resolved α) → Resolved (List α)
  | [] => ok []
  | r :: rest => (both r (all rest)).map fun p => p.1 :: p.2

end Resolved

structure Scope where
  bindings : Bindings
  values : Valuation

namespace Scope

def number (scope : Scope) (v : Ast.Value) : Resolved Int :=
  let (findings, value) := scope.bindings.number scope.values v
  ⟨findings, value⟩

def base (scope : Scope) (d : Ast.Declaration) (allowVoid : Bool) : Resolved Base :=
  match d.ty.base with
  | .inlineBody loc kind => .bad (.inlineBody kind) (loc <|> d.loc)
  | .builtin .quadruple => .bad .quadruple (d.ty.loc <|> d.loc)
  | .builtin .void => if allowVoid then .ok (.builtin .void) else .bad .misplacedVoid d.loc
  | .builtin b => .ok (.builtin b)
  | .named name =>
    match scope.bindings.find? name with
    | none => .bad (.undefinedSymbol name) (d.ty.loc <|> d.loc)
    | some s =>
      if s.kind.isType then .ok (.named name)
      else .bad (.notAType name s.kind) (d.ty.loc <|> d.loc)

def length (scope : Scope) (d : Ast.Declaration) : Resolved (Option Nat) :=
  match d.ty.size with
  | none => .ok none
  | some size =>
    match scope.number size with
    | ⟨findings, none⟩ => ⟨findings, none⟩
    | ⟨findings, some v⟩ =>
      if inLengthRange v then ⟨findings, some (some v.toNat)⟩
      else ⟨findings ++ [⟨.lengthRange (d.name.getD "None") v, size.loc⟩], none⟩

def decl (scope : Scope) (d : Ast.Declaration) (allowVoid : Bool) : Resolved Decl :=
  match scope.base d allowVoid with
  | ⟨findings, none⟩ => ⟨findings, none⟩
  | ⟨findings, some base⟩ =>
    let length := scope.length d
    ⟨findings ++ length.findings,
     length.value.map fun n => { base, arity := d.ty.arity, length := n, name := d.name }⟩

def enum (scope : Scope) (d : Ast.EnumDef) : EnumType :=
  ⟨d.name, d.variants.filterMap fun v => (scope.values.value? v.name).map (v.name, ·)⟩

def arm (scope : Scope) (a : Ast.UnionArm) : Resolved Arm :=
  let labels := Resolved.all (a.labels.map fun v => (scope.number v).map fun n => ⟨n, v.name?⟩)
  (Resolved.both (scope.decl a.decl true) labels).map fun p => ⟨p.2, p.1⟩

def fallback (scope : Scope) : Option Ast.Declaration → Resolved (Option Decl)
  | none => .ok none
  | some d => (scope.decl d true).map some

def definition (scope : Scope) : Ast.Definition → Option (Resolved Definition)
  | .const _ => none
  | .enum d => some (.ok (.enum (scope.enum d)))
  | .struct d =>
    some ((Resolved.all (d.fields.map fun f => scope.decl f false)).map fun fields =>
      .struct ⟨d.name, fields⟩)
  | .typedef d => some ((scope.decl d.decl false).map fun decl => .typedef ⟨d.name, decl⟩)
  | .union d =>
    let discriminant := scope.decl d.discriminant false
    let arms := Resolved.all (d.arms.map scope.arm)
    let fallback := scope.fallback d.fallback
    some ((Resolved.both discriminant (Resolved.both arms fallback)).map fun p =>
      .union ⟨d.name, p.1, p.2.1, p.2.2⟩)

def definitions (scope : Scope) (spec : Ast.Specification) : Definitions × List Finding :=
  let parts := spec.definitions.filterMap scope.definition
  (parts.filterMap (·.value), parts.flatMap (·.findings))

end Scope

def Graph.addDefinition (g : Graph) (d : Definition) : Graph :=
  d.members.foldl
    (fun g m =>
      match m.base with
      | .named target => g.addEdge d.name target (m.arity = .optional)
      | .builtin _ => g)
    (g.addNode d.name)

def Definitions.graph (defs : Definitions) : Graph := defs.foldl Graph.addDefinition .empty

def Definitions.nestedArrays (defs : Definitions) (spec : Ast.Specification) : List Finding :=
  (spec.definitions.flatMap (·.declarations)).filterMap fun d =>
    match d.ty.base with
    | .named element =>
      if (d.ty.arity = .fixed || d.ty.arity = .varying) &&
          (defs.canonical (.scalar (.named element))).isArray then
        some ⟨.nestedArray element, d.ty.loc <|> d.loc⟩
      else none
    | _ => none

end Xdr
