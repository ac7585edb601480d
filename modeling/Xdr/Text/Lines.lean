/-!
# Lines of a text

A text is cut at every line boundary: line feed, carriage return (a pair of the two counts once),
line tabulation, form feed, the three information separators, next line, and the line and paragraph
separators.
-/

namespace Xdr.Text

def isLineBreak (c : Char) : Bool :=
  let n := c.toNat
  (0x0a ≤ n && n ≤ 0x0d) || (0x1c ≤ n && n ≤ 0x1e) || n = 0x85 || n = 0x2028 || n = 0x2029

def linesFrom (line : List Char) : List Char → List (List Char)
  | [] => if line.isEmpty then [] else [line.reverse]
  | '\r' :: '\n' :: rest => line.reverse :: linesFrom [] rest
  | c :: rest =>
    if isLineBreak c then line.reverse :: linesFrom [] rest else linesFrom (c :: line) rest

def lines (s : String) : List String := (linesFrom [] s.toList).map String.ofList

def unifyNewlines : List Char → List Char
  | [] => []
  | '\r' :: '\n' :: rest => '\n' :: unifyNewlines rest
  | c :: rest => (if c = '\r' then '\n' else c) :: unifyNewlines rest

def isBlank (c : Char) : Bool :=
  let n := c.toNat
  isLineBreak c || n = 0x09 || n = 0x1f || n = 0x20 || n = 0xa0 || n = 0x1680 ||
    (0x2000 ≤ n && n ≤ 0x200a) || n = 0x202f || n = 0x205f || n = 0x3000

def trimEnd (s : String) : String :=
  String.ofList ((s.toList.reverse.dropWhile isBlank).reverse)

/-- The margin of an outline, two blanks a level. -/
def indentation (level : Nat) : String := String.ofList (List.replicate (2 * level) ' ')

end Xdr.Text

/-! ## Sorted texts -/

namespace Xdr

def insertText (s : String) : List String → List String
  | [] => [s]
  | x :: xs => if s = x then x :: xs else if s < x then s :: x :: xs else x :: insertText s xs

/-- Texts in ascending order of their characters, each once. -/
def sortTexts (xs : List String) : List String := xs.foldl (fun acc s => insertText s acc) []

end Xdr
