import Xdr.Number.Binary

/-!
# Shortest decimals

The decimal of a floating-point number has the fewest digits that read back as the number, and of
those the digits nearest to it.
-/

namespace Xdr.Number

open scoped Power

structure Ratio where
  num : Nat
  den : Nat

namespace Ratio

def ofBinary (m : Nat) (e : Int) : Ratio :=
  if 0 ≤ e then ⟨m * 2 ^ e.toNat, 1⟩ else ⟨m, 2 ^ (-e).toNat⟩

def ofDecimal (m : Nat) (e : Int) : Ratio :=
  if 0 ≤ e then ⟨m * 10 ^ e.toNat, 1⟩ else ⟨m, 10 ^ (-e).toNat⟩

def lt (a b : Ratio) : Bool := a.num * b.den < b.num * a.den

def quotient (a b : Ratio) : Nat := a.num * b.den / (a.den * b.num)

def distance (a b : Ratio) : Ratio :=
  let x := a.num * b.den
  let y := b.num * a.den
  ⟨if x < y then y - x else x - y, a.den * b.den⟩

end Ratio

/-- The numbers that round to a floating-point number: those between two ends, which belong to them
when the mantissa is even. -/
structure Interval where
  low : Ratio
  high : Ratio
  closed : Bool

def interval (m : Nat) (e : Int) : Interval :=
  let low :=
    if m = 2 ^ binary64.fraction && binary64.lowest < e then Ratio.ofBinary (4 * m - 1) (e - 2)
    else Ratio.ofBinary (2 * m - 1) (e - 1)
  ⟨low, .ofBinary (2 * m + 1) (e - 1), m % 2 = 0⟩

def Interval.contains (i : Interval) (r : Ratio) : Bool :=
  if i.closed then !r.lt i.low && !i.high.lt r else i.low.lt r && r.lt i.high

def wholeDigitsFrom (r : Ratio) : Nat → Int → Int
  | 0, k => k
  | n + 1, k => if r.lt (.ofDecimal 1 k) then k else wholeDigitsFrom r n (k + 1)

def wholeDigits (r : Ratio) : Int := wholeDigitsFrom r 700 (-330)

/-- The decimal of `n` digits nearest to a number, among its two neighbours with `n` digits, when it
lies in the interval: the digits and the exponent of the last one. -/
def candidate? (i : Interval) (r : Ratio) (k : Int) (n : Nat) : Option (Nat × Int) :=
  let e := k - n
  let a := r.quotient (.ofDecimal 1 e)
  let below := Ratio.ofDecimal a e
  let above := Ratio.ofDecimal (a + 1) e
  match 0 < a && i.contains below, i.contains above with
  | true, true =>
    let nearBelow := Ratio.lt (r.distance below) (r.distance above)
    let nearAbove := Ratio.lt (r.distance above) (r.distance below)
    if nearBelow || (!nearAbove && a % 2 = 0) then some (a, e) else some (a + 1, e)
  | true, false => some (a, e)
  | false, true => some (a + 1, e)
  | false, false => none

def firstCandidate (i : Interval) (r : Ratio) (k : Int) : Nat → Nat → Nat × Int
  | 0, n => (r.quotient (.ofDecimal 1 (k - n)), k - n)
  | rounds + 1, n =>
    match candidate? i r k n with
    | some found => found
    | none => firstCandidate i r k rounds (n + 1)

def dropZeros (cs : List Char) : List Char := (cs.reverse.dropWhile (· = '0')).reverse

def shortest (m : Nat) (e : Int) : List Char × Int :=
  let r := Ratio.ofBinary m e
  let (digits, last) := firstCandidate (interval m e) r (wholeDigits r) 17 1
  let cs := (toString digits).toList
  (dropZeros cs, last + cs.length)

def twoDigits (n : Nat) : String := if n < 10 then "0" ++ toString n else toString n

def layout (digits : List Char) (point : Int) : String :=
  let zeros (n : Nat) := List.replicate n '0'
  if -4 < point && point ≤ 16 then
    if point ≤ 0 then "0." ++ String.ofList (zeros (-point).toNat ++ digits)
    else
      let p := point.toNat
      if digits.length ≤ p then String.ofList (digits ++ zeros (p - digits.length)) ++ ".0"
      else String.ofList (digits.take p) ++ "." ++ String.ofList (digits.drop p)
  else
    let power := point - 1
    let sign := if power < 0 then "-" else "+"
    let rest := digits.drop 1
    String.ofList (digits.take 1) ++
      (if rest.isEmpty then "" else "." ++ String.ofList rest) ++
      "e" ++ sign ++ twoDigits power.natAbs

def showDouble (bits : Nat) : String :=
  match binary64.datum bits with
  | .nan _ _ => "nan"
  | .infinite negative => if negative then "-inf" else "inf"
  | .finite negative m e =>
    let sign := if negative then "-" else ""
    if m = 0 then sign ++ "0.0"
    else
      let (digits, point) := shortest m e
      sign ++ layout digits point

end Xdr.Number
