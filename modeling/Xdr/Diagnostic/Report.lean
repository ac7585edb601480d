import Xdr.Diagnostic

/-!
# Rendering diagnostics

A diagnostic is shown as a headline with its place, and below it the line of the source with a
marker under the span. Colour and box drawing are optional.
-/

namespace Xdr

structure Style where
  color : Bool
  unicode : Bool
deriving DecidableEq

def Style.plain : Style := ⟨false, false⟩

/-- What decides the style of a stream: whether it is a terminal, and three variables of the
environment. -/
structure Surroundings where
  isTerminal : Bool
  term : Option String
  noColor : Option String
  noUnicode : Option String

def Style.choose (s : Surroundings) (color unicode : Option Bool) : Style :=
  let capable := s.isTerminal && s.term ≠ some "dumb"
  ⟨color.getD (capable && s.noColor.isNone), unicode.getD (capable && s.noUnicode.isNone)⟩

structure Report where
  source : Option String
  filename : String
  items : List Diagnostic

namespace Report

def errors (r : Report) : List Diagnostic := r.items.filter (·.isError)

def warnings (r : Report) : List Diagnostic := r.items.filter (!·.isError)

def failure? (r : Report) : Option Category :=
  r.errors.head?.map fun d =>
    ((Code.ofLabel? d.code).map (·.entry.category)).getD .internal

end Report

/-- Follows the parts of a relative path from a directory; nothing is left when the path leads
out of it. `done` are the parts so far, last first. -/
def followParts (done : List String) : List String → Option (List String)
  | [] => some done.reverse
  | part :: rest =>
    if part = "" || part = "." then followParts done rest
    else if part = ".." then
      match done with
      | [] => none
      | _ :: up => followParts up rest
    else followParts (part :: done) rest

def pathParts (path : String) : List String := path.splitOn "/"

/-- How a file is named in a headline: a path below the working directory in the form `./path`, a
name in angle brackets and any other path as given. -/
def displayName (filename : String) : String :=
  if filename.startsWith "<" || filename.startsWith "/" || filename.toList.contains '\x00' then
    filename
  else
    match followParts [] (pathParts filename) with
    | some [] => "./."
    | some parts => "./" ++ String.intercalate "/" parts
    | none => filename

namespace Draw

def escape (n : String) : String := "\x1b[" ++ n ++ "m"

def colored (style : Style) (n text : String) : String :=
  if style.color then escape n ++ text ++ escape "0" else text

def times (c : Char) (n : Nat) : String := String.ofList (List.replicate n c)

end Draw

namespace Diagnostic

open Draw

def hue (d : Diagnostic) : String := if d.isError then "31" else "33"

def headline (style : Style) (filename : String) (d : Diagnostic) : String :=
  let name := displayName filename
  let loc :=
    match d.span with
    | some s => s!"{name}:{s.line}:{s.col}"
    | none => name
  let message := if d.message.endsWith "." then d.message else d.message ++ "."
  if style.color then
    colored style "36" loc ++ ": " ++ escape "1" ++ escape d.hue ++ d.severity.word ++ escape "0" ++
      " [" ++ colored style "2" d.code ++ "]: " ++ message
  else loc ++ ": " ++ d.severity.word ++ " [" ++ d.code ++ "]: " ++ message

def lineAt (lines : List String) (n : Int) : String :=
  if 1 ≤ n then lines[(n - 1).toNat]?.getD "" else ""

def markStart (s : Span) : Nat := (max 1 s.col).toNat

def markWidth (s : Span) : Nat :=
  if s.endLine = s.line then (max 1 (s.endCol - markStart s)).toNat else 1

def draw (style : Style) (filename : String) (lines : Option (List String)) (d : Diagnostic) :
    List String :=
  let head := d.headline style filename
  match d.span, lines with
  | some s, some lines =>
    let text := lineAt lines s.line
    let start := markStart s
    let width := markWidth s
    if style.unicode then
      let marker := colored style d.hue (times ' ' (start - 1) ++ "┯" ++ times '━' (width - 1))
      [colored style "90" "  ╭──┤ " ++ head,
       colored style "90" "  │" ++ "  " ++ text,
       colored style "90" "  │" ++ "  " ++ marker,
       colored style "90" ("  ╰" ++ times '─' start) ++ colored style "90" "╯"]
    else [head, "  | " ++ text, "  ` " ++ times ' ' (start - 1) ++ times '^' width]
  | _, _ => [head]

end Diagnostic

namespace Report

def sourceLines (r : Report) : Option (List String) :=
  match r.source with
  | some text => if text.isEmpty then none else some (Text.lines text)
  | none => none

def renderItems (r : Report) (style : Style) (items : List Diagnostic) : String :=
  String.intercalate "\n" (items.flatMap (·.draw style r.filename r.sourceLines))

def render (r : Report) (style : Style) : String := r.renderItems style r.items

def printed (r : Report) (style : Style) : String :=
  let text := r.render style
  if text.isEmpty then "" else text ++ "\n"

end Report

end Xdr
