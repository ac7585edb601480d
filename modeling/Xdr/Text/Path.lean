/-!
# Paths

The text of a path is a root, if any, and names between slashes.
-/

namespace Xdr

structure Path where
  root : String
  parts : List String
deriving DecidableEq

namespace Path

def rootOf : List Char → String
  | '/' :: '/' :: '/' :: _ => "/"
  | '/' :: '/' :: _ => "//"
  | '/' :: _ => "/"
  | _ => ""

def ofText (s : String) : Path :=
  ⟨rootOf s.toList, (s.splitOn "/").filter fun part => !part.isEmpty && part != "."⟩

def text (p : Path) : String :=
  if p.root.isEmpty && p.parts.isEmpty then "."
  else p.root ++ String.intercalate "/" p.parts

def name (p : Path) : String := p.parts.getLast?.getD ""

def parent (p : Path) : Path := { p with parts := p.parts.dropLast }

def continued? (p : Path) (suffix : String) : Option Path :=
  match p.parts.getLast? with
  | some last => some { p with parts := p.parts.dropLast ++ [last ++ suffix] }
  | none => none

end Path

end Xdr
