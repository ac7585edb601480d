import Xdr.Analysis.Layout

/-!
# Analysis

The checks of a specification, in five steps: names, then numbers and mentioned types, then cycles
of types that hold each other by value, then nested arrays and unions, then layout.
-/

namespace Xdr

/-- How far an analysis came. A later step is present only when the earlier ones found no error. -/
structure Analysis where
  findings : List Finding
  names : Nat
  resolved : Option Nat
  graph : Option Graph
  schema : Option Schema

def anyError (findings : List Finding) : Bool := findings.any Finding.isError

def Bindings.spanOf (bindings : Bindings) (name : String) : Option Span :=
  (bindings.find? name).bind (·.span)

/-- All checks of a specification, each made only if those before found no error. A recursion is
as deep as the specification asks: no limit of a stack is modelled. -/
def analyze (spec : Ast.Specification) : Analysis :=
  let (bindings, findings) := Bindings.collect spec
  let names := bindings.length
  if anyError findings then ⟨findings, names, none, none, none⟩
  else
    let evaluation := bindings.evaluateAll
    let scope : Scope := ⟨bindings, evaluation.values⟩
    let (defs, mentions) := scope.definitions spec
    let findings := evaluation.findings ++ evaluation.values.enumFindings spec ++ mentions
    let resolved := some defs.length
    if anyError findings then ⟨findings, names, resolved, none, none⟩
    else
      let graph := defs.graph
      match graph.findCycle with
      | first :: rest =>
        ⟨findings ++ [⟨.infiniteType (first :: rest), bindings.spanOf first⟩],
          names, resolved, some graph, none⟩
      | [] =>
        let findings := findings ++ defs.nestedArrays spec ++ defs.unionFindings bindings spec
        if anyError findings then ⟨findings, names, resolved, some graph, none⟩
        else
          match graph.topologicalOrder with
          | none =>
            ⟨findings ++ [⟨.internalError "layout requested for a cyclic type graph", none⟩],
              names, resolved, some graph, none⟩
          | some order =>
            let constants := bindings.constants evaluation.values
            ⟨findings, names, resolved, some graph, some (defs.schema constants graph order)⟩

end Xdr
