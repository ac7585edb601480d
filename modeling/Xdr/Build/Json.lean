import Xdr.Number.Literal
import Xdr.Text.Quoted

/-!
# JSON

Values of the format JSON and their reader. The reader also takes the three words for numbers that
are not finite.
-/

namespace Xdr.Build.Json

open scoped Power
open Number (hexValue?)

inductive Value
  | null
  | bool (b : Bool)
  | int (n : Int)
  /-- A number with a fraction or an exponent, as the pattern of the nearest one in eight bytes. -/
  | float (bits : Nat)
  | text (codes : List Nat)
  | array (items : List Value)
  | object (members : List (List Nat × Value))
deriving Inhabited

def codes (s : String) : List Nat := s.toList.map (·.toNat)

namespace Value

def member? (members : List (List Nat × Value)) (name : String) : Option Value :=
  members.reverse.lookup (codes name)

def isCodes (v : Value) (cs : List Nat) : Bool :=
  match v with
  | text found => found = cs
  | _ => false

def isText (v : Value) (s : String) : Bool := v.isCodes (codes s)

def isNumber (v : Value) (n : Int) : Bool :=
  match v with
  | int m => m = n
  | bool b => (if b then 1 else 0) = n
  | float bits => Number.equalsInteger bits n
  | _ => false

def isFlag (v : Value) (b : Bool) : Bool := v.isNumber (if b then 1 else 0)

end Value

def isSpace (c : Char) : Bool := c = ' ' || c = '\t' || c = '\n' || c = '\r'

def skip (cs : List Char) : List Char := cs.dropWhile isSpace

def hexFour? : List Char → Option (Nat × List Char)
  | a :: b :: c :: d :: rest => do
    let number := (((← hexValue? a) * 16 + (← hexValue? b)) * 16 + (← hexValue? c)) * 16
    return (number + (← hexValue? d), rest)
  | _ => none

def escaped? : Char → Option Nat
  | '"' => some 0x22
  | '\\' => some 0x5c
  | '/' => some 0x2f
  | 'b' => some 0x08
  | 'f' => some 0x0c
  | 'n' => some 0x0a
  | 'r' => some 0x0d
  | 't' => some 0x09
  | _ => none

/-- Adds the number of an escape to a text that is held last character first. The second half of a
surrogate pair joins the first when both were escaped. -/
def addEscape (n : Nat) (half : Bool) (done : List Nat) : List Nat :=
  match done with
  | high :: before =>
    if half && 0xdc00 ≤ n && n ≤ 0xdfff then
      (0x10000 + (high - 0xd800) * 0x400 + (n - 0xdc00)) :: before
    else n :: done
  | [] => [n]

/-- Reads a text up to its closing mark; `done` is last character first, and `half` says that its
last character is the first half of a surrogate pair from an escape. -/
def readText : Nat → List Nat → Bool → List Char → Option (List Nat × List Char)
  | 0, _, _, _ => none
  | _ + 1, _, _, [] => none
  | _ + 1, done, _, '"' :: rest => some (done.reverse, rest)
  | fuel + 1, done, half, '\\' :: 'u' :: rest => do
    let (n, rest) ← hexFour? rest
    let joined := half && 0xdc00 ≤ n && n ≤ 0xdfff
    readText fuel (addEscape n half done) (!joined && 0xd800 ≤ n && n ≤ 0xdbff) rest
  | fuel + 1, done, _, '\\' :: c :: rest => do readText fuel ((← escaped? c) :: done) false rest
  | fuel + 1, done, _, c :: rest =>
    if c = '\\' || c.toNat < 0x20 then none else readText fuel (c.toNat :: done) false rest

def digits (cs : List Char) : List Char := cs.takeWhile Char.isDigit

def numberOf (cs : List Char) : Nat := cs.foldl (fun n c => n * 10 + (c.toNat - '0'.toNat)) 0

def wholePart (cs : List Char) : List Char :=
  match cs with
  | '0' :: _ => ['0']
  | _ => digits cs

def fractionPart : List Char → List Char
  | '.' :: rest => digits rest
  | _ => []

def exponentPart : List Char → Option (Int × Nat)
  | mark :: rest =>
    if mark = 'e' || mark = 'E' then
      let (negative, signs, rest) :=
        match rest with
        | '-' :: more => (true, 1, more)
        | '+' :: more => (false, 1, more)
        | more => (false, 0, more)
      let ds := digits rest
      if ds.isEmpty then none
      else
        let n : Int := numberOf ds
        some (if negative then -n else n, 1 + signs + ds.length)
    else none
  | [] => none

def integerDigits : Nat := 4300

def readNumber (negative : Bool) (cs : List Char) : Option (Value × List Char) :=
  let whole := wholePart cs
  let rest := cs.drop whole.length
  let fraction := fractionPart rest
  let rest := if fraction.isEmpty then rest else rest.drop (fraction.length + 1)
  if whole.isEmpty then none
  else
    let all := whole ++ fraction
    let float (e : Int) : Value :=
      .float (Number.ofDecimal negative (numberOf all) all.length (e - fraction.length))
    match exponentPart rest with
    | some (e, width) => some (float e, rest.drop width)
    | none =>
      if !fraction.isEmpty then some (float 0, rest)
      else if integerDigits < whole.length then none
      else
        let n : Int := numberOf whole
        some (.int (if negative then -n else n), rest)

def wordTable : List (List Char × Value) :=
  [("null".toList, .null), ("true".toList, .bool true), ("false".toList, .bool false),
   ("NaN".toList, .float (Number.binary64.infinity + 2 ^ (51 : Nat))),
   ("Infinity".toList, .float Number.binary64.infinity),
   ("-Infinity".toList, .float (Number.binary64.signBit true + Number.binary64.infinity))]

def readWord? (cs : List Char) : Option (Value × List Char) :=
  (wordTable.find? fun entry => entry.1.isPrefixOf cs).map fun entry =>
    (entry.2, cs.drop entry.1.length)

mutual

def readValue : Nat → List Char → Option (Value × List Char)
  | 0, _ => none
  | fuel + 1, cs =>
    match cs with
    | '"' :: rest => (readText (rest.length + 1) [] false rest).map fun (t, rest) => (.text t, rest)
    | '\x7b' :: rest =>
      match skip rest with
      | '\x7d' :: rest => some (.object [], rest)
      | rest => readMembers fuel [] rest
    | '[' :: rest =>
      match skip rest with
      | ']' :: rest => some (.array [], rest)
      | rest => readItems fuel [] rest
    | _ =>
      match readWord? cs with
      | some found => some found
      | none =>
        match cs with
        | '-' :: rest => readNumber true rest
        | _ => readNumber false cs

def readItems : Nat → List Value → List Char → Option (Value × List Char)
  | 0, _, _ => none
  | fuel + 1, done, cs => do
    let (v, rest) ← readValue fuel cs
    match skip rest with
    | ',' :: rest => readItems fuel (v :: done) (skip rest)
    | ']' :: rest => some (.array (v :: done).reverse, rest)
    | _ => none

def readMembers : Nat → List (List Nat × Value) → List Char → Option (Value × List Char)
  | 0, _, _ => none
  | fuel + 1, done, '"' :: cs => do
    let (name, rest) ← readText (cs.length + 1) [] false cs
    match skip rest with
    | ':' :: rest =>
      let (v, rest) ← readValue fuel (skip rest)
      match skip rest with
      | ',' :: rest => readMembers fuel ((name, v) :: done) (skip rest)
      | '\x7d' :: rest => some (.object ((name, v) :: done).reverse, rest)
      | _ => none
    | _ => none
  | _ + 1, _, _ => none

end

def read (s : String) : Option Value :=
  let cs := s.toList
  match readValue (2 * cs.length + 1) (skip cs) with
  | some (v, rest) => if (skip rest).isEmpty then some v else none
  | none => none

def unitEscape (n : Nat) : List Char := '\\' :: 'u' :: Text.hexPadded 4 n

def writeChar (c : Char) : List Char :=
  let n := c.toNat
  if c = '"' || c = '\\' then ['\\', c]
  else if c = '\n' then ['\\', 'n']
  else if c = '\r' then ['\\', 'r']
  else if c = '\t' then ['\\', 't']
  else if n = 0x08 then ['\\', 'b']
  else if n = 0x0c then ['\\', 'f']
  else if 0x20 ≤ n && n < 0x7f then [c]
  else if n < 0x10000 then unitEscape n
  else
    unitEscape (0xd800 + (n - 0x10000) / 0x400) ++ unitEscape (0xdc00 + (n - 0x10000) % 0x400)

def writeText (s : String) : String :=
  String.ofList ('"' :: s.toList.flatMap writeChar ++ ['"'])

/-- A code point that is no character is half of a surrogate pair, and is escaped as it stands. -/
def writeCode (n : Nat) : List Char :=
  if n.isValidChar then writeChar (Char.ofNat n) else unitEscape n

def writeCodes (cs : List Nat) : String :=
  String.ofList ('"' :: cs.flatMap writeCode ++ ['"'])

def writeFlag (b : Bool) : String := if b then "true" else "false"

end Xdr.Build.Json
