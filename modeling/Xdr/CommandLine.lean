import Xdr.CommandLine.Arguments
import Xdr.CommandLine.Log
import Xdr.CommandLine.Usage
import Xdr.Config.Document
import Xdr.Files

/-!
# The command

The command reads a configuration and a specification, compiles, and writes the module to a file or
prints it. All that it needs of the outside is reading and writing files.
-/

namespace Xdr.CommandLine

def version : String := "0.4.0"

structure Host (m : Type → Type) where
  read : Path → m (Except FileFault (List UInt8))
  write : Path → List UInt8 → m (Except FileFault Unit)

def Host.ofFiles : Host (StateM Files) where
  read path := return (← get).read path
  write path data := do
    match (← get).write path data with
    | .ok fs => set fs; return .ok ()
    | .error f => return .error f

inductive Breakdown
  | file (f : FileFault)
  | notText
  | document (f : Config.DocumentFault)
  | compilation (f : Failure)

inductive Stop
  | exit (code : Nat)
  | breakdown (b : Breakdown)

structure Printed where
  out : String := ""
  err : String := ""
deriving DecidableEq

/-- How the command shows things: the style of diagnostics, and what stands for the time a stage
took. -/
structure Manner where
  style : Style := .plain
  elapsed : String := "0.0"

abbrev Run (m : Type → Type) := ExceptT Stop (StateT Printed m)

variable {m : Type → Type} [Monad m]

def say (text : String) : Run m Unit := modify fun p => { p with out := p.out ++ text }

def complain (text : String) : Run m Unit := modify fun p => { p with err := p.err ++ text }

def fail {α : Type} (text : String) : Run m α := do
  complain text
  throw (.exit 2)

def ask {α : Type} (x : m α) : Run m α := ExceptT.lift (StateT.lift x)

def notTextMessage (data : List UInt8) (f : Wire.Utf8Fault) : String :=
  let place :=
    if f.width = 1 then
      let byte := (data[f.start]?.map (·.toNat)).getD 0
      "byte 0x" ++ String.ofList (Text.hexPadded 2 byte) ++ s!" in position {f.start}"
    else s!"bytes in position {f.start}-{f.start + f.width - 1}"
  "'utf-8' codec can't decode " ++ place ++ ": " ++ f.reason.message

def refuse {α : Type} (f : ConfigFault) : Run m α :=
  match f.message? with
  | some text => fail ("error: " ++ text ++ "\n")
  | none => throw (.breakdown (.document (.config f)))

def loadConfig (host : Host m) (path : Path) : Run m Config := do
  match ← ask (host.read path) with
  | .error f =>
    if [.missing, .notFolder, .nullCharacter].contains f then
      fail ("error: No configuration file at " ++ path.text ++ "\n")
    else throw (.breakdown (.file f))
  | .ok data =>
    match Wire.textOfBytes data with
    | .error _ => throw (.breakdown .notText)
    | .ok text =>
      match Config.ofDocument path.text text (path.name = "pyproject.toml") with
      | .ok c => return c
      | .error (.malformed f) =>
        if f.cause = .hugeInteger then throw (.breakdown (.document (.malformed f)))
        else fail ("error: " ++ path.text ++ ": " ++ f.message ++ "\n")
      | .error (.config f) => refuse f

def Arguments.overrides (a : Arguments) : List (String × Setting) :=
  (if a.strictPadding then [("strict_padding", .flag true)] else []) ++
    (a.runtimeModule.map fun name => ("runtime_module", name)).toList ++
    if a.noAll then [("export_all", .flag false)] else []

def configFor (host : Host m) (a : Arguments) : Run m Config := do
  let base ←
    match a.config with
    | some path => if path.isEmpty then pure {} else loadConfig host (Path.ofText path)
    | none => pure {}
  match base.withSettings a.overrides with
  | .ok c => return c
  | .error f => refuse f

def loadSource (host : Host m) (path : Path) : Run m String := do
  let unreadable (message : String) : Run m String :=
    fail ("error: cannot read " ++ path.text ++ ": " ++ message ++ "\n")
  match ← ask (host.read path) with
  | .error .nullCharacter => throw (.breakdown (.file .nullCharacter))
  | .error f => unreadable (f.message path)
  | .ok data =>
    match Wire.textOfBytes data with
    | .error f => unreadable (notTextMessage data f)
    | .ok text => return String.ofList (Text.unifyNewlines text.toList)

def failWith {α : Type} (manner : Manner) : Failure → Run m α
  | .reported r => fail (r.printed manner.style)
  | f => throw (.breakdown (.compilation f))

def compileText (manner : Manner) (a : Arguments) (config : Config) (filename source : String) :
    Run m String := do
  let log (lines : List LogLine) : Run m Unit :=
    if a.verbosity = 0 then pure ()
    else complain (String.join (lines.map (·.text manner.elapsed)))
  let c := compile filename source
  if a.dumpParse then say ((c.tree.map fun t => t.render ++ "\n").getD "")
  log ((c.specification.map readingLog).getD [])
  if a.dumpAst then
    match c.specification.map (·.dump?) with
    | none => pure ()
    | some (some text) => say (text ++ "\n")
    | some none => failWith manner .unreadable
  log ((c.analysis.map analysisLog).getD [])
  match c.outcome with
  | .error f => failWith manner f
  | .ok accepted =>
    log (warningLog accepted.report)
    match accepted.moduleLines config filename with
    | .error f => failWith manner f
    | .ok lines =>
      log (emissionLog accepted.schema lines)
      complain (accepted.report.printed manner.style)
      return lines.text

def deliver (host : Host m) (out : Option String) (text : String) : Run m Unit := do
  match out with
  | none => say text
  | some target =>
    if target.isEmpty then say text
    else
      let path := Path.ofText target
      match ← ask (host.write path (Wire.utf8 text)) with
      | .ok _ => return
      | .error .nullCharacter => throw (.breakdown (.file .nullCharacter))
      | .error f => fail ("error: cannot write " ++ target ++ ": " ++ f.message path ++ "\n")

def perform (host : Host m) (manner : Manner) (a : Arguments) : Run m Unit := do
  if a.version then say (commandName ++ " " ++ version ++ "\n")
  else
    let source := a.source.getD ""
    if source.isEmpty then fail "error: source file required\n"
    else
      let config ← configFor host a
      let path := Path.ofText source
      let text ← loadSource host path
      deliver host a.out (← compileText manner a config path.text text)

def command (host : Host m) (manner : Manner) (argv : List String) : Run m Unit := do
  match Arguments.parse argv with
  | .error .help => say help
  | .error (.usage f) => fail (usage ++ commandName ++ ": error: " ++ f.message ++ "\n")
  | .ok a => perform host manner a

def execute (host : Host m) (manner : Manner) (argv : List String) :
    m (Except Breakdown Nat × Printed) := do
  let (ended, printed) ← (command host manner argv).run.run {}
  let code :=
    match ended with
    | .ok _ => .ok 0
    | .error (.exit n) => .ok n
    | .error (.breakdown b) => .error b
  return (code, printed)

end Xdr.CommandLine
