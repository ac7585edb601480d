/-!
# Spans of source text

A span runs from a start to an end position. Lines and columns are counted from one, a column is a
character, and only a line feed starts a new line.
-/

namespace Xdr

/-- A stretch of text: `(line, col)` up to and without `(endLine, endCol)`. -/
structure Span where
  line : Int
  col : Int
  endLine : Int
  endCol : Int
deriving DecidableEq

def Span.start (s : Span) : String := s!"{s.line}:{s.col}"

structure Position where
  line : Nat
  col : Nat
deriving DecidableEq

namespace Position

def first : Position := ⟨1, 1⟩

def step (p : Position) (c : Char) : Position :=
  if c = '\n' then ⟨p.line + 1, 1⟩ else ⟨p.line, p.col + 1⟩

def advance (p : Position) (cs : List Char) : Position := cs.foldl step p

theorem advance_nil (p : Position) : p.advance [] = p := rfl

theorem advance_cons (p : Position) (c : Char) (cs : List Char) :
    p.advance (c :: cs) = (p.step c).advance cs := rfl

theorem advance_append (p : Position) (xs ys : List Char) :
    p.advance (xs ++ ys) = (p.advance xs).advance ys := by
  simp only [advance, List.foldl_append]

end Position

def Span.between (a b : Position) : Span := ⟨a.line, a.col, b.line, b.col⟩

def Span.at (p : Position) (width : Nat) : Span := ⟨p.line, p.col, p.line, p.col + width⟩

end Xdr
