import Xdr.Diagnostic

/-!
# The namespace of a specification

Constants, enum values and types share one flat namespace, to which two predefined constants belong.
-/

namespace Xdr

structure Binding where
  name : String
  kind : Kind
  value : Option Ast.Value
  span : Option Span
  owner : Option String
deriving DecidableEq

def Binding.predefined (name : String) : Binding := ⟨name, .const, none, none, none⟩

/-- Where the name was bound, as a message about a second binding says it. -/
def Binding.whereabouts (s : Binding) : String :=
  (s.span.map Span.start).getD "a predefined constant"

abbrev Bindings := List Binding

namespace Bindings

def find? (table : Bindings) (name : String) : Option Binding :=
  if (predefined? name).isSome then some (.predefined name) else List.find? (·.name = name) table

def ofDefinition : Ast.Definition → List Binding
  | .const d => [⟨d.name, .const, some d.value, d.nameSpan, none⟩]
  | .enum d =>
    ⟨d.name, .enum, none, d.nameSpan, none⟩ ::
      d.variants.map fun v => ⟨v.name, .enumValue, some v.value, v.nameSpan, some d.name⟩
  | d => [⟨d.name, d.kind, none, d.nameSpan, none⟩]

def register (state : Bindings × List Finding) (s : Binding) : Bindings × List Finding :=
  match state.1.find? s.name with
  | some previous =>
    (state.1, state.2 ++ [⟨.duplicateName s.name previous.whereabouts, s.span⟩])
  | none => (state.1 ++ [s], state.2)

/-- The fields whose name an earlier field has. -/
def repeatedFields (owner : String) : List String → List Ast.Declaration → List Finding
  | _, [] => []
  | seen, d :: rest =>
    match d.name with
    | none => repeatedFields owner seen rest
    | some name =>
      if seen.contains name then
        ⟨.duplicateField name owner, d.nameSpan <|> d.loc⟩ :: repeatedFields owner seen rest
      else repeatedFields owner (name :: seen) rest

def fieldFindings : Ast.Definition → List Finding
  | .struct d => repeatedFields d.name [] d.fields
  | _ => []

def enter (state : Bindings × List Finding) (d : Ast.Definition) : Bindings × List Finding :=
  let state := (ofDefinition d).foldl register state
  (state.1, state.2 ++ fieldFindings d)

def collect (spec : Ast.Specification) : Bindings × List Finding :=
  spec.definitions.foldl enter ([], [])

end Bindings

end Xdr
