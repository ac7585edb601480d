import Xdr.Number.Binary
import Xdr.Text.Lines
import Xdr.Text.Printable

/-!
# Integer literals

A literal is hexadecimal after `0x`, octal when it has more than one digit and starts with a zero,
and decimal otherwise; a minus sign in front negates it.
-/

namespace Xdr.Number

open scoped Power

def hexValue? (c : Char) : Option Nat :=
  if '0' ≤ c && c ≤ '9' then some (c.toNat - 48)
  else if 'a' ≤ c && c ≤ 'f' then some (c.toNat - 87)
  else if 'A' ≤ c && c ≤ 'F' then some (c.toNat - 55)
  else none

def digitValue? (c : Char) : Option Nat := hexValue? c <|> Text.decimalValue? c

def readDigits? (base : Nat) : Nat → List Char → Option Nat
  | acc, [] => some acc
  | acc, c :: rest =>
    match digitValue? c with
    | some d => if d < base then readDigits? base (acc * base + d) rest else none
    | none => none

def dropUnderscores? : List Char → Option (List Char)
  | [] => some []
  | '_' :: _ => none
  | [c] => some [c]
  | c :: '_' :: d :: rest =>
    if d = '_' then none else (dropUnderscores? (d :: rest)).map (c :: ·)
  | c :: d :: rest => (dropUnderscores? (d :: rest)).map (c :: ·)

def maxDecimalDigits : Nat := 4300

def isWritable (n : Int) : Bool := n.natAbs < 10 ^ maxDecimalDigits

def decimal? (n : Int) : Option String := if isWritable n then some (toString n) else none

def readNatural? (base : Nat) (cs : List Char) : Option Nat :=
  match dropUnderscores? cs with
  | some (c :: rest) =>
    if base = 10 && maxDecimalDigits < rest.length + 1 then none
    else readDigits? base 0 (c :: rest)
  | _ => none

def dropBasePrefix (base : Nat) (cs : List Char) : List Char :=
  match cs with
  | first :: x :: rest =>
    if digitValue? first = some 0 &&
        ((base = 16 && (x = 'x' || x = 'X')) || (base = 8 && (x = 'o' || x = 'O'))) then
      match rest with
      | '_' :: more => more
      | _ => rest
    else cs
  | _ => cs

def isSpacing (c : Char) : Bool :=
  Text.isBlank c && !(0x1c ≤ c.toNat && c.toNat ≤ 0x1f)

def trimBlanks (cs : List Char) : List Char :=
  ((cs.dropWhile isSpacing).reverse.dropWhile isSpacing).reverse

def readInteger? (base : Nat) (cs : List Char) : Option Int :=
  match trimBlanks cs with
  | '-' :: rest => (readNatural? base (dropBasePrefix base rest)).map fun n => -(n : Int)
  | '+' :: rest => (readNatural? base (dropBasePrefix base rest)).map fun n => (n : Int)
  | rest => (readNatural? base (dropBasePrefix base rest)).map fun n => (n : Int)

inductive LiteralFault
  | octalDigit
  | malformed
deriving DecidableEq

def magnitude (cs : List Char) : Except LiteralFault Int :=
  let read (base : Nat) (digits : List Char) : Except LiteralFault Int :=
    match readInteger? base digits with
    | some v => .ok v
    | none => .error .malformed
  match cs with
  | '0' :: x :: rest =>
    if x = 'x' || x = 'X' then read 16 rest
    else if cs.any fun c => c = '8' || c = '9' then .error .octalDigit
    else read 8 cs
  | _ => read 10 cs

def parseLiteral (text : String) : Except LiteralFault Int :=
  match text.toList with
  | '-' :: rest => (magnitude rest).map fun v => -v
  | cs => magnitude cs

end Xdr.Number
