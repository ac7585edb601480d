import Xdr.Analysis
import Xdr.Ast.Dump
import Xdr.Diagnostic.Report
import Xdr.Emit

/-!
# From text to module

The stages of a compilation, each of which runs only when the one before it found no error.
-/

namespace Xdr

inductive Failure
  /-- At least one error was found; the report holds everything found so far. -/
  | reported (report : Report)
  /-- A number cannot be read, or has too many digits to be written in a message. -/
  | unreadable
  | notASpecification
  | unlabelledArm

def Report.add (r : Report) (findings : List Finding) : Report :=
  { r with items := r.items ++ findings.map Finding.diagnostic }

def treeOf (report : Report) (source : String) : Except Failure Tree :=
  match Tree.parse source with
  | .ok t => .ok t
  | .error fault => .error (.reported (report.add [fault.finding]))

def definitionsOf (report : Report) (t : Tree) : Except Failure Ast.Specification :=
  match Ast.build t with
  | .ok spec => .ok spec
  | .error fault =>
    match fault.finding? with
    | some f => .error (.reported (report.add [f]))
    | none =>
      match fault.cause with
      | .notASpecification => .error .notASpecification
      | _ => .error .unreadable

structure Accepted where
  report : Report
  schema : Schema

def Analysis.outcome (a : Analysis) (report : Report) : Except Failure Accepted :=
  if a.findings.all (·.problem.isWritable) then
    match a.schema with
    | some schema => .ok ⟨report.add a.findings, schema⟩
    | none => .error (.reported (report.add a.findings))
  else .error .unreadable

/-- How far a compilation came: every stage that was reached, and how it ended. -/
structure Compilation where
  tree : Option Tree
  specification : Option Ast.Specification
  analysis : Option Analysis
  outcome : Except Failure Accepted

def compile (filename source : String) : Compilation :=
  let report : Report := ⟨some source, filename, []⟩
  match treeOf report source with
  | .error f => ⟨none, none, none, .error f⟩
  | .ok tree =>
    match definitionsOf report tree with
    | .error f => ⟨some tree, none, none, .error f⟩
    | .ok spec =>
      let analysis := analyze spec
      ⟨some tree, some spec, some analysis, analysis.outcome report⟩

def Accepted.moduleLines (a : Accepted) (c : Config) (filename : String) : Except Failure Lines :=
  match Emit.moduleLines? a.schema c (Emit.sourceName? filename) with
  | some lines => .ok lines
  | none => .error .unlabelledArm

def generate (c : Config) (filename source : String) : Except Failure String := do
  let accepted ← (compile filename source).outcome
  return (← accepted.moduleLines c filename).text

end Xdr
