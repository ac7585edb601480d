import Xdr.Config
import Xdr.Toml.Reader

/-!
# Configuration documents

A project file keeps the options in a table of their own below `tool`, any other document at its top.
-/

namespace Xdr.Config

def settingOf : Toml.Value → Setting
  | .string s => .text s
  | .bool b => .flag b
  | .int _ => .other "int"
  | .float _ => .other "float"
  | .datetime _ => .other "datetime"
  | .date _ => .other "date"
  | .time _ => .other "time"
  | .array _ => .other "list"
  | .table _ => .other "dict"

def ofTable (source : String) (t : Toml.Table) : Except ConfigFault Config :=
  ofSettings source (t.map fun (name, v) => (name, settingOf v))

def textsOf? : List Toml.Value → Option (List String)
  | [] => some []
  | .string s :: rest => (textsOf? rest).map (s :: ·)
  | _ :: _ => none

def ofValue (source : String) : Toml.Value → Except ConfigFault Config
  | .table t => ofTable source t
  | .string s => ofNames source (s.toList.map String.singleton)
  | .array items =>
    match textsOf? items with
    | some names => ofNames source names
    | none => .error .notATable
  | _ => .error .notATable

def ofProject (source : String) (t : Toml.Table) : Except ConfigFault Config :=
  match t.find? "tool" with
  | none => .ok {}
  | some (.table tool) =>
    match Toml.Table.find? tool "fastxdr" with
    | none => .ok {}
    | some v => ofValue source v
  | some _ => .error .notSearchable

inductive DocumentFault
  | malformed (f : Toml.Fault)
  | config (f : ConfigFault)

def ofDocument (source text : String) (project : Bool) : Except DocumentFault Config :=
  match Toml.read text with
  | .error f => .error (.malformed f)
  | .ok t =>
    match (if project then ofProject source t else ofTable source t) with
    | .ok c => .ok c
    | .error f => .error (.config f)

end Xdr.Config
