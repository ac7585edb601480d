import Xdr.Emit.Classes
import Xdr.Text.Path

/-!
# The text of a module

A generated module has a header, the constants, the enums with their values, the other types in the
order of the specification, and the list of its public names.
-/

namespace Xdr.Emit

open Naming Lines Phrase

def headerComments (c : Config) (sourceName : Option String) : Lines :=
  (Text.lines c.headerComment).flatMap (fun text => line (plain (Text.trimEnd ("# " ++ text)))) ++
    match sourceName with
    | some name => if name.isEmpty then [] else line (plain ("# Generated by fastxdr from " ++ name))
    | none => []

def imports (c : Config) : Lines :=
  let importAs (module name : String) := line (plain s!"import {module} as " ++ rely name)
  line (plain "from __future__ import " ++ rely "annotations") ++ blank 1 ++
    importAs "dataclasses" "_dc" ++ importAs "typing" "_t" ++ blank 1 ++
    importAs c.runtimeModule "_xdr" ++ blank 2

def constantLines (s : Schema) : Lines :=
  if s.constants.isEmpty then []
  else
    s.constants.flatMap (fun (name, v) =>
      line (assign (binds (globalName name)) (plain (toString v)))) ++ blank 2

def classes? (s : Schema) (c : Config) (t : TypeInfo) : Option (List ClassText) :=
  match t.definition with
  | .enum e => some [enumClass e]
  | .struct d => some [structClass s c t d]
  | .typedef d => some [typedefClass s c t d.decl.toShape]
  | .union u => (s.unionPlan? u).map fun p => unionClass s c t p :: p.arms.map (armClass s p t)

/-- What stands below the classes of a type: the values of an enum, and for a union that the classes
of its arms have no name left but the attribute of the union. -/
def closingLines (t : TypeInfo) (arms : List ClassText) : Lines :=
  match t.definition with
  | .enum e => aliasLines e
  | .union _ => line (plain "del " ++ commas (arms.map (own ·.name))) ++ blank 2
  | _ => []

def typeLines? (s : Schema) (c : Config) (t : TypeInfo) : Option Lines :=
  (classes? s c t).map fun classes =>
    classes.flatMap ClassText.lines ++ closingLines t classes.tail

def exportLines (s : Schema) : Lines :=
  block (plain "__all__ = [")
    (s.exports.flatMap fun name => line (plain (Text.quote name ++ ","))) ++ line (plain "]")

def bodyLines? (s : Schema) (c : Config) : Option Lines := do
  let enums ← (s.types.filter (·.kind = .enum)).mapM (typeLines? s c)
  let types ← (s.types.filter (·.kind ≠ .enum)).mapM (typeLines? s c)
  return imports c ++ constantLines s ++ enums.flatten ++ types.flatten ++
    if c.exportAll then exportLines s else []

def moduleLines? (s : Schema) (c : Config) (sourceName : Option String) : Option Lines :=
  (bodyLines? s c).map (headerComments c sourceName ++ ·)

def sourceName? (filename : String) : Option String :=
  if filename.isEmpty || filename.startsWith "<" then none
  else some (Path.ofText filename).name

end Xdr.Emit
