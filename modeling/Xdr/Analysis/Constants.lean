import Xdr.Analysis.Bindings

/-!
# Constants

Constants and enum values are literals or names of other constants.
-/

namespace Xdr

abbrev Valuation := List (String × Option Int)

/-- A number, or nothing, with the numbers and findings met on the way. -/
structure Evaluation where
  values : Valuation
  findings : List Finding

namespace Evaluation

def empty : Evaluation := ⟨[], []⟩

def report (e : Evaluation) (f : Finding) : Evaluation := { e with findings := e.findings ++ [f] }

def note (e : Evaluation) (name : String) (value : Option Int) : Evaluation :=
  { e with values := (name, value) :: e.values }

end Evaluation

/-- The problem of a number outside the range of its binding. -/
def rangeProblem? (s : Binding) (v : Int) : Option Problem :=
  match s.kind with
  | .enumValue => if inEnumRange v then none else some (.enumRange s.name v)
  | _ => if inConstRange v then none else some (.constantRange s.name v)

inductive Reference
  | bad (problem : Problem)
  | predefined (value : Int)
  | binding (s : Binding)

def Bindings.reference (table : Bindings) (name : String) : Reference :=
  match predefined? name with
  | some v => .predefined v
  | none =>
    match table.find? name with
    | none => .bad (.undefinedSymbol name)
    | some s => if s.kind.isValue then .binding s else .bad (.notAValue name s.kind)

/-- The number of a binding. `trail` holds the names whose evaluation waits for this one, outermost
first; every step lengthens it by a new name, so `n` may be the number of bindings and one more. -/
def Bindings.evaluate (table : Bindings) :
    Nat → List String → Binding → Evaluation → Evaluation × Option Int
  | 0, _, _, e => (e, none)
  | n + 1, trail, s, e =>
    match e.values.lookup s.name with
    | some known => (e, known)
    | none =>
      if trail.contains s.name then
        let cycle := trail.dropWhile (· != s.name) ++ [s.name]
        let e := e.report ⟨.cyclicConstant s.name cycle, s.span⟩
        (cycle.foldl (fun e name => e.note name none) e, none)
      else
        let (e, result) : Evaluation × Option Int :=
          match s.value with
          | none => (e, none)
          | some (.literal _ v _) => (e, some v)
          | some (.reference loc name) =>
            match table.reference name with
            | .bad problem => (e.report ⟨problem, loc⟩, none)
            | .predefined v => (e, some v)
            | .binding target => table.evaluate n (trail ++ [s.name]) target e
        if e.values.lookup s.name = some none then (e, none)
        else
          match result with
          | none => (e.note s.name none, none)
          | some v =>
            match rangeProblem? s v with
            | none => (e.note s.name (some v), some v)
            | some problem =>
              ((e.report ⟨problem, s.value.bind Ast.Value.loc <|> s.span⟩).note s.name none, none)

def Bindings.valueOf (table : Bindings) (s : Binding) (e : Evaluation) : Evaluation × Option Int :=
  table.evaluate (table.length + 1) [] s e

def Bindings.ask (table : Bindings) (asked : List Binding) (e : Evaluation) : Evaluation :=
  asked.foldl (fun e s => (table.valueOf s e).1) e

def Bindings.evaluateAll (table : Bindings) : Evaluation :=
  table.ask (table.filter (·.kind.isValue)) .empty

def Valuation.value? (values : Valuation) (name : String) : Option Int :=
  (List.lookup name values).join

def Bindings.constants (table : Bindings) (values : Valuation) : List (String × Int) :=
  (table.filter (·.kind = .const)).filterMap fun s => (values.value? s.name).map (s.name, ·)

def repeatedNumbers (values : Valuation) (enum : String) :
    List (Int × String) → List Ast.EnumVariant → List Finding
  | _, [] => []
  | seen, v :: rest =>
    match values.value? v.name with
    | none => repeatedNumbers values enum seen rest
    | some number =>
      match seen.lookup number with
      | some previous =>
        ⟨.duplicateEnumValue enum number previous v.name, v.nameSpan⟩ ::
          repeatedNumbers values enum seen rest
      | none => repeatedNumbers values enum ((number, v.name) :: seen) rest

def Valuation.enumFindings (values : Valuation) (spec : Ast.Specification) : List Finding :=
  spec.definitions.flatMap fun
    | .enum d => repeatedNumbers values d.name [] d.variants
    | _ => []

def Bindings.number (table : Bindings) (values : Valuation) : Ast.Value → List Finding × Option Int
  | .literal _ v _ => ([], some v)
  | .reference loc name =>
    match table.reference name with
    | .bad problem => ([⟨problem, loc⟩], none)
    | .predefined v => ([], some v)
    | .binding s => ([], values.value? s.name)

end Xdr
