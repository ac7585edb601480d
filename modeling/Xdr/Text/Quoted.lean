import Xdr.Text.Printable

/-!
# Quoted text and bytes

A quoted text stands between apostrophes, or between quotation marks when it holds an apostrophe and
no quotation mark.
-/

namespace Xdr.Text

def hexDigit (n : Nat) : Char := (Nat.digitChar (n % 16))

def hexPadded : Nat → Nat → List Char
  | 0, _ => []
  | width + 1, n => hexPadded width (n / 16) ++ [hexDigit n]

theorem hexPadded_length (width n : Nat) : (hexPadded width n).length = width := by
  induction width generalizing n with
  | zero => rfl
  | succ w ih => simp only [hexPadded, List.length_append, ih, List.length_singleton]

def enclosingMark (cs : List Char) : Char :=
  if cs.contains '\'' && !cs.contains '"' then '"' else '\''

def quoteChar (mark c : Char) : List Char :=
  if c = mark || c = '\\' then ['\\', c]
  else if c = '\n' then ['\\', 'n']
  else if c = '\r' then ['\\', 'r']
  else if c = '\t' then ['\\', 't']
  else if isPrintable c then [c]
  else if c.toNat < 0x100 then '\\' :: 'x' :: hexPadded 2 c.toNat
  else if c.toNat < 0x10000 then '\\' :: 'u' :: hexPadded 4 c.toNat
  else '\\' :: 'U' :: hexPadded 8 c.toNat

def quote (s : String) : String :=
  let mark := enclosingMark s.toList
  String.ofList (mark :: s.toList.flatMap (quoteChar mark) ++ [mark])

def quoteBytes (bs : List UInt8) : String :=
  let cs := bs.map fun b => Char.ofNat b.toNat
  let mark := enclosingMark cs
  let body := cs.flatMap fun c =>
    if c.toNat < 0x80 then quoteChar mark c else '\\' :: 'x' :: hexPadded 2 c.toNat
  String.ofList ('b' :: mark :: body ++ [mark])

def hexOfBytes (bs : List UInt8) : String :=
  String.ofList (bs.flatMap fun b => hexPadded 2 b.toNat)

end Xdr.Text
