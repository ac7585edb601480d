import Xdr.Build.Json
import Xdr.Compilation
import Xdr.Digest
import Xdr.Files

/-!
# Incremental builds

A module is generated again only when its specification or the configuration changed. A stamp beside
the module records what it was made from.
-/

namespace Xdr.Build

def version : String := "0.4.0"

/-- The configuration of a build. Halves of surrogate pairs may stand alone in the header comment,
which is given by its code points. -/
structure Options where
  runtimeModule : String
  strictPadding : Bool
  exportAll : Bool
  comment : List Nat
deriving DecidableEq

namespace Options

def ofConfig (c : Config) : Options :=
  ⟨c.runtimeModule, c.strictPadding, c.exportAll, Json.codes c.headerComment⟩

/-- The header comment as a text that has an encoding. -/
def text? (o : Options) : Option String :=
  if o.comment.all Nat.isValidChar then some (String.ofList (o.comment.map Char.ofNat)) else none

/-- The configuration, with no header comment in place of one that has no encoding. -/
def config (o : Options) : Config :=
  ⟨o.runtimeModule, o.strictPadding, o.exportAll, o.text?.getD ""⟩

end Options

structure Stamp where
  modified : Int
  size : Nat
  options : Options
  digest : String
deriving DecidableEq

def Stamp.text (s : Stamp) : String :=
  String.intercalate "\n"
    ["\x7b",
     "  \"fastxdr\": " ++ Json.writeText version ++ ",",
     "  \"mtime_ns\": " ++ toString s.modified ++ ",",
     "  \"size\": " ++ toString s.size ++ ",",
     "  \"config\": \x7b",
     "    \"runtime_module\": " ++ Json.writeText s.options.runtimeModule ++ ",",
     "    \"strict_padding\": " ++ Json.writeFlag s.options.strictPadding ++ ",",
     "    \"export_all\": " ++ Json.writeFlag s.options.exportAll ++ ",",
     "    \"header_comment\": " ++ Json.writeCodes s.options.comment,
     "  \x7d,",
     "  \"sha256\": " ++ Json.writeText s.digest,
     "\x7d"]

abbrev Record := List (List Nat × Json.Value)

namespace Record

def holds (r : Record) (name : String) (test : Json.Value → Bool) : Bool :=
  ((Json.Value.member? r name).map test).getD false

def isConfig (o : Options) (v : Json.Value) : Bool :=
  match v with
  | .object members =>
    holds members "runtime_module" (·.isText o.runtimeModule) &&
      holds members "strict_padding" (·.isFlag o.strictPadding) &&
      holds members "export_all" (·.isFlag o.exportAll) &&
      holds members "header_comment" (·.isCodes o.comment) &&
      members.all fun m => (Settings.names.map Json.codes).contains m.1
  | _ => false

def sameInputs (r : Record) (o : Options) : Bool :=
  r.holds "fastxdr" (·.isText version) && r.holds "config" (isConfig o)

def sameStatus (r : Record) (modified : Int) (size : Nat) : Bool :=
  r.holds "mtime_ns" (·.isNumber modified) && r.holds "size" (·.isNumber size)

def sameDigest (r : Record) (digest : String) : Bool := r.holds "sha256" (·.isText digest)

end Record

inductive Fault
  | file (f : FileFault)
  | compilation (f : Failure)
  | notText
  | strangeStamp
  /-- The path of the module has no name that the stamp could be called after. -/
  | unnamedOutput
  /-- The header comment has no encoding, and neither has the module. -/
  | unencodable

abbrev Work := ExceptT Fault (StateM Files)

def settle {α : Type} : Except Fault α → Work α
  | .ok a => pure a
  | .error f => throw f

def look {α : Type} (f : Files → Except FileFault α) : Work α := do
  match f (← get) with
  | .ok a => return a
  | .error e => throw (.file e)

def change (f : Files → Except FileFault Files) : Work Unit := do
  set (← look f)

def recorded (fs : Files) (stamp : Path) : Option Json.Value :=
  match fs.read stamp with
  | .error _ => none
  | .ok data =>
    match Wire.textOfBytes data with
    | .error _ => none
    | .ok text =>
      match Json.read text with
      | some .null => none
      | found => found

def earlier? (fs : Files) (out stamp : Path) : Except Fault (Option Record) :=
  match recorded fs stamp with
  | none => .ok none
  | some v =>
    match fs.has out, v with
    | .error f, _ => .error (.file f)
    | .ok false, _ => .ok none
    | .ok true, .object members => .ok (some members)
    | .ok true, _ => .error .strangeStamp

structure Request where
  spec : Path
  out : Path
  options : Options := .ofConfig {}
  stamp : Option Path := none

def Request.config (r : Request) : Config := r.options.config

def Request.stampPath (r : Request) : Except Fault Path :=
  match r.stamp with
  | some p => .ok p
  | none =>
    match r.out.continued? ".fastxdr-stamp" with
    | some p => .ok p
    | none => .error .unnamedOutput

/-- Writes the module. The file is emptied before the text is encoded, and stays empty if there is no
encoding. -/
def Request.writeModule (r : Request) (text : String) : Work Unit :=
  match r.options.text? with
  | some _ => change (·.write r.out (Wire.utf8 text))
  | none => do
    change (·.write r.out [])
    throw .unencodable

def Request.run (r : Request) : Work Bool := do
  let stamp ← settle r.stampPath
  let (modified, size) ← look (·.status r.spec)
  let previous ← settle (earlier? (← get) r.out stamp)
  let same := previous.filter fun p => p.sameInputs r.options
  if same.any fun p => p.sameStatus modified size then return false
  let data ← look (·.read r.spec)
  let digest := Text.hexOfBytes (Digest.sha256 data)
  let current : Stamp := ⟨modified, size, r.options, digest⟩
  let writeStamp : Work Unit := change (·.write stamp (Wire.utf8 current.text))
  if same.any fun p => p.sameDigest digest then
    writeStamp
    return false
  match Wire.textOfBytes data with
  | .error _ => throw .notText
  | .ok source =>
    match generate r.config r.spec.text source with
    | .error f => throw (.compilation f)
    | .ok text =>
      change (·.makeFolder r.out.parent)
      r.writeModule text
      writeStamp
      return true

end Xdr.Build
