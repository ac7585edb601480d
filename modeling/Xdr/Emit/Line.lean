import Xdr.Emit.Phrase

/-!
# Indented lines

Source text is a list of lines, each with its depth. A block is a header with deeper lines below
it. A page takes lines one after the other and keeps the current depth.
-/

namespace Xdr

open List

structure Line where
  depth : Nat
  phrase : Phrase
deriving DecidableEq

namespace Line

def render (l : Line) : String :=
  let text := l.phrase.text
  if text.isEmpty then "" else String.ofList (List.replicate (4 * l.depth) ' ') ++ text

def deeper (l : Line) : Line := { l with depth := l.depth + 1 }

end Line

abbrev Lines := List Line

namespace Lines

def line (phrase : Phrase) : Lines := [⟨0, phrase⟩]

def blank (n : Nat) : Lines := List.replicate n ⟨0, []⟩

def block (header : Phrase) (body : Lines) : Lines := line header ++ body.map Line.deeper

def text (ls : Lines) : String :=
  let written := ls.map Line.render
  String.intercalate "\n" (written.reverse.dropWhile String.isEmpty).reverse ++ "\n"

def boundNames (ls : Lines) : List String :=
  ls.flatMap fun l => if l.depth = 0 then l.phrase.boundNames else []

def reliedNames (ls : Lines) : List String := ls.flatMap (·.phrase.reliedNames)

section

variable (n : Nat) (p header : Phrase) (body ls₁ ls₂ : Lines)

@[simp] theorem boundNames_nil : boundNames [] = [] := rfl
@[simp] theorem boundNames_append :
    boundNames (ls₁ ++ ls₂) = ls₁.boundNames ++ ls₂.boundNames := flatMap_append
@[simp] theorem boundNames_line : (line p).boundNames = p.boundNames := flatMap_singleton ..
@[simp] theorem boundNames_blank : (blank n).boundNames = [] := by simp [boundNames, blank]

/-- What stands below a header is no name of the module. -/
@[simp] theorem boundNames_block : (block header body).boundNames = header.boundNames := by
  simp [block, boundNames, line, Line.deeper]

@[simp] theorem reliedNames_nil : reliedNames [] = [] := rfl
@[simp] theorem reliedNames_append :
    reliedNames (ls₁ ++ ls₂) = ls₁.reliedNames ++ ls₂.reliedNames := flatMap_append
@[simp] theorem reliedNames_line : (line p).reliedNames = p.reliedNames :=
  flatMap_singleton ..
@[simp] theorem reliedNames_blank : (blank n).reliedNames = [] := by simp [reliedNames, blank]
@[simp] theorem reliedNames_block :
    (block header body).reliedNames = header.reliedNames ++ body.reliedNames := by
  simp [block, reliedNames, line, Line.deeper, flatMap_map]

end

end Lines

/-- A page that is being written: its lines, and the depth of the next one. -/
structure Page where
  lines : Lines
  level : Nat
deriving DecidableEq

namespace Page

def empty : Page := ⟨[], 0⟩

def write (p : Page) (text : String) : Page :=
  { p with lines := p.lines ++ [⟨p.level, .plain text⟩] }

def skip (p : Page) (n : Nat) : Page := { p with lines := p.lines ++ Lines.blank n }

def indent (p : Page) : Page := { p with level := p.level + 1 }

def dedent (p : Page) : Page := { p with level := p.level - 1 }

def openBlock (p : Page) (header : String) : Page := (p.write header).indent

end Page

end Xdr
