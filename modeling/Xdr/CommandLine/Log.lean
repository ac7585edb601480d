import Xdr.Compilation

/-!
# The log of a compilation

Each stage that was passed leaves lines with numbers about its result.
-/

namespace Xdr.CommandLine

/-- A line of the log: its level, the part of the compiler that it comes from, the message, and
whether the time that a stage took is added. -/
structure LogLine where
  level : String := "DEBUG"
  origin : String
  message : String
  timed : Bool := false
deriving DecidableEq

def LogLine.text (l : LogLine) (elapsed : String) : String :=
  l.level ++ " fastxdr." ++ l.origin ++ ": " ++ l.message ++
    (if l.timed then " in " ++ elapsed ++ " ms" else "") ++ "\n"

def stageLine (message : String) : LogLine :=
  { origin := "compiler.pipeline", message, timed := true }

def readingLog (spec : Ast.Specification) : List LogLine :=
  [stageLine s!"parsed {spec.definitions.length} definitions"]

def resolutionLog (a : Analysis) : List LogLine :=
  let line (message : String) : LogLine := { origin := "semantics.passes.resolve", message }
  (a.resolved.map fun n => line s!"resolved {n} type definitions").toList ++
    (a.graph.map fun g => line g.summary).toList

def layoutLog (s : Schema) : List LogLine :=
  let fixed := (s.types.filter fun t => t.size != .varying).length
  let bearing := (s.types.filter (·.holdsOpaque)).length
  let types := s.types.length
  [{ origin := "semantics.passes.layout",
     message := s!"layout: {fixed} fixed, {bearing} opaque-bearing" },
   { origin := "semantics.semantic_analyzer", message := s!"pass 4: {types} types laid out" },
   stageLine s!"analyzed {types} types, {s.constants.length} constants"]

def analysisLog (a : Analysis) : List LogLine :=
  { origin := "semantics.semantic_analyzer", message := s!"pass 0: {a.names} names collected" } ::
    (resolutionLog a ++ (a.schema.map layoutLog).getD [])

def warningLog (r : Report) : List LogLine :=
  r.warnings.map fun d =>
    { level := "INFO", origin := "compiler.pipeline",
      message := r.filename ++ " [" ++ d.code ++ "]: " ++ d.message }

def emissionLog (s : Schema) (lines : Lines) : List LogLine :=
  [{ origin := "backend.codegen_python",
     message := s!"emitted {lines.length} lines, {s.exports.length} public names" },
   stageLine s!"emitted {lines.text.length} bytes"]

end Xdr.CommandLine
