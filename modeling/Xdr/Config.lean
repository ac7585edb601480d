import Xdr.Text.Lines

/-!
# Configuration

What can be chosen about a generated module. Options come from documents whose values may have any
type: `Settings.check` is the way from those to a `Config`.
-/

namespace Xdr

structure Config where
  /-- The module that the generated code takes its support from. -/
  runtimeModule : String := "fastxdr.runtime"
  strictPadding : Bool := false
  exportAll : Bool := true
  headerComment : String := "Do NOT modify"
deriving DecidableEq

/-- A value for an option. Of values that fit no option only the name of their type matters. -/
inductive Setting
  | flag (b : Bool)
  | text (s : String)
  | other (typeName : String)
deriving DecidableEq

def Setting.typeName : Setting → String
  | flag _ => "bool"
  | text _ => "str"
  | other name => name

inductive ConfigFault
  | unknownOptions (source : String) (names : List String)
  | wrongType (option expected found : String)
  | badModule (name : String)
  | noSuchOption
  | notATable
  /-- Something that is no table was to be searched for a name. -/
  | notSearchable
deriving DecidableEq

def ConfigFault.message? : ConfigFault → Option String
  | unknownOptions source names =>
    some (source ++ ": unknown option(s): " ++ String.intercalate ", " names)
  | wrongType option expected found => some s!"Option '{option}' must be {expected}, got {found}"
  | badModule name => some s!"Invalid runtime_module '{name}'. Must be a dotted module path."
  | noSuchOption => none
  | notATable => none
  | notSearchable => none

def isPathStart (c : Char) : Bool :=
  ('a' ≤ c && c ≤ 'z') || ('A' ≤ c && c ≤ 'Z') || c = '_'

def isPathChar (c : Char) : Bool := isPathStart c || ('0' ≤ c && c ≤ '9')

def isPathPart : List Char → Bool
  | [] => false
  | c :: rest => isPathStart c && rest.all isPathChar

def dotParts : List Char → List (List Char)
  | [] => [[]]
  | '.' :: rest => [] :: dotParts rest
  | c :: rest =>
    match dotParts rest with
    | first :: others => (c :: first) :: others
    | [] => [[c]]

def dropFinalBreak (cs : List Char) : List Char :=
  if cs.getLast? = some '\n' then cs.dropLast else cs

def isModulePath (name : String) : Bool := (dotParts (dropFinalBreak name.toList)).all isPathPart

structure Settings where
  runtimeModule : Setting
  strictPadding : Setting
  exportAll : Setting
  headerComment : Setting
deriving DecidableEq

namespace Settings

def names : List String := ["runtime_module", "strict_padding", "export_all", "header_comment"]

def ofConfig (c : Config) : Settings :=
  ⟨.text c.runtimeModule, .flag c.strictPadding, .flag c.exportAll, .text c.headerComment⟩

def set (s : Settings) (name : String) (v : Setting) : Settings :=
  if name = "runtime_module" then { s with runtimeModule := v }
  else if name = "strict_padding" then { s with strictPadding := v }
  else if name = "export_all" then { s with exportAll := v }
  else if name = "header_comment" then { s with headerComment := v }
  else s

def asText (option : String) : Setting → Except ConfigFault String
  | .text s => .ok s
  | v => .error (.wrongType option "str" v.typeName)

def asFlag (option : String) : Setting → Except ConfigFault Bool
  | .flag b => .ok b
  | v => .error (.wrongType option "bool" v.typeName)

def check (s : Settings) : Except ConfigFault Config := do
  let runtimeModule ← asText "runtime_module" s.runtimeModule
  let strictPadding ← asFlag "strict_padding" s.strictPadding
  let exportAll ← asFlag "export_all" s.exportAll
  let headerComment ← asText "header_comment" s.headerComment
  if isModulePath runtimeModule then
    return { runtimeModule, strictPadding, exportAll, headerComment }
  else throw (.badModule runtimeModule)

end Settings

namespace Config

def withSettings (c : Config) (overrides : List (String × Setting)) : Except ConfigFault Config :=
  if overrides.all fun o => Settings.names.contains o.1 then
    (overrides.foldl (fun s o => s.set o.1 o.2) (Settings.ofConfig c)).check
  else .error .noSuchOption

def unknownOptions (names : List String) : List String :=
  sortTexts (names.filter fun name => !Settings.names.contains name).eraseDups

def ofSettings (source : String) (options : List (String × Setting)) : Except ConfigFault Config :=
  let unknown := unknownOptions (options.map (·.1))
  if unknown.isEmpty then ({} : Config).withSettings options
  else .error (.unknownOptions source unknown)

def ofNames (source : String) (names : List String) : Except ConfigFault Config :=
  let unknown := unknownOptions names
  .error (if unknown.isEmpty then .notATable else .unknownOptions source unknown)

end Config

end Xdr
