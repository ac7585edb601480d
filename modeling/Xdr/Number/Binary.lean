/-!
# Binary floating point

Bit patterns of the two formats with four and eight bytes, taken apart into sign, mantissa and
exponent and put together again.
-/

namespace Xdr.Power

/-- A power in a definition is the one of the core library, whatever an importing module knows of
monoids, so that a definition means the same under any import. -/
scoped instance (priority := 2000) core {α : Type} [NatPow α] : Pow α Nat := instPowNat

end Xdr.Power

namespace Xdr.Number

open scoped Power

structure Format where
  fraction : Nat
  exponent : Nat
deriving DecidableEq

def binary32 : Format := ⟨23, 8⟩

def binary64 : Format := ⟨52, 11⟩

/-- What a bit pattern stands for. A finite number is `mantissa * 2 ^ exponent`. -/
inductive Datum
  | nan (negative : Bool) (payload : Nat)
  | infinite (negative : Bool)
  | finite (negative : Bool) (mantissa : Nat) (exponent : Int)
deriving DecidableEq

namespace Format

def bias (f : Format) : Int := 2 ^ (f.exponent - 1) - 1

def lowest (f : Format) : Int := 1 - f.bias - f.fraction

def infinity (f : Format) : Nat := (2 ^ f.exponent - 1) * 2 ^ f.fraction

def signBit (f : Format) (negative : Bool) : Nat :=
  if negative then 2 ^ (f.fraction + f.exponent) else 0

def datum (f : Format) (bits : Nat) : Datum :=
  let fraction := bits % 2 ^ f.fraction
  let exponent := bits / 2 ^ f.fraction % 2 ^ f.exponent
  let negative := bits / 2 ^ (f.fraction + f.exponent) % 2 = 1
  if exponent = 2 ^ f.exponent - 1 then
    if fraction = 0 then .infinite negative else .nan negative fraction
  else if exponent = 0 then .finite negative fraction f.lowest
  else .finite negative (2 ^ f.fraction + fraction) (f.lowest + exponent - 1)

end Format

def roundShift (m k : Nat) : Nat :=
  let q := m / 2 ^ k
  let r := m % 2 ^ k
  if 2 ^ k < 2 * r || (2 * r = 2 ^ k && q % 2 = 1) then q + 1 else q

namespace Format

/-- The pattern of the number nearest to `m * 2 ^ e`; absent when it is beyond the finite ones. A
mantissa that rounds up to the next power of two carries into the exponent. -/
def nearest? (f : Format) (negative : Bool) (m : Nat) (e : Int) : Option Nat :=
  if m = 0 then some (f.signBit negative)
  else
    let q := max (e + Nat.log2 m - f.fraction) f.lowest
    let n := if q ≤ e then m * 2 ^ (e - q).toNat else roundShift m (q - e).toNat
    let bits := (q - f.lowest).toNat * 2 ^ f.fraction + n
    if bits < f.infinity then some (f.signBit negative + bits) else none

end Format

def widen (bits : Nat) : Nat :=
  match binary32.datum bits with
  | .finite negative m e => (binary64.nearest? negative m e).getD 0
  | .infinite negative => binary64.signBit negative + binary64.infinity
  | .nan negative payload =>
    binary64.signBit negative + binary64.infinity + 2 ^ (51 : Nat) +
      payload % 2 ^ (22 : Nat) * 2 ^ (29 : Nat)

def narrow? (bits : Nat) : Option Nat :=
  match binary64.datum bits with
  | .finite negative m e => binary32.nearest? negative m e
  | .infinite negative => some (binary32.signBit negative + binary32.infinity)
  | .nan negative payload =>
    some (binary32.signBit negative + binary32.infinity + 2 ^ (22 : Nat) +
      payload % 2 ^ (51 : Nat) / 2 ^ (29 : Nat))

def ofInteger? (n : Int) : Option Nat := binary64.nearest? (n < 0) n.natAbs 0

def equalsInteger (bits : Nat) (n : Int) : Bool :=
  match binary64.datum bits with
  | .finite negative m e =>
    let signed : Int := if negative then -m else m
    if 0 ≤ e then signed * 2 ^ e.toNat = n else signed = n * 2 ^ (-e).toNat
  | _ => false

def exceedsInteger (bits : Nat) (n : Int) : Bool :=
  match binary64.datum bits with
  | .nan _ _ => false
  | .infinite negative => !negative
  | .finite negative m e =>
    let signed : Int := if negative then -m else m
    if 0 ≤ e then n < signed * 2 ^ e.toNat else n * 2 ^ (-e).toNat < signed

def truncate? (bits : Nat) : Option Int :=
  match binary64.datum bits with
  | .finite negative m e =>
    let whole := if 0 ≤ e then m * 2 ^ e.toNat else m / 2 ^ (-e).toNat
    some (if negative then -whole else whole)
  | _ => none

def equalsDouble (a b : Nat) : Bool :=
  match binary64.datum a, binary64.datum b with
  | .nan _ _, _ => false
  | _, .nan _ _ => false
  | .finite _ 0 _, .finite _ 0 _ => true
  | x, y => x = y

/-! ## Decimals -/

/-- The pattern nearest to `num / den`. The quotient is taken with more bits than any number has,
and one further bit says whether it goes on, so that rounding it rounds the fraction. -/
def nearestRatio? (negative : Bool) (num den : Nat) : Option Nat :=
  let shift := Nat.log2 den + 66
  let scaled := num * 2 ^ shift
  let more := if scaled % den = 0 then 0 else 1
  binary64.nearest? negative (2 * (scaled / den) + more) (-(shift + 1 : Nat))

/-- The pattern nearest to `m * 10 ^ e`, where `m` has `digits` digits. -/
def ofDecimal (negative : Bool) (m digits : Nat) (e : Int) : Nat :=
  let pattern? :=
    if m = 0 || e + digits < -400 then some (binary64.signBit negative)
    else if 400 < e then none
    else if 0 ≤ e then binary64.nearest? negative (m * 10 ^ e.toNat) 0
    else nearestRatio? negative m (10 ^ (-e).toNat)
  pattern?.getD (binary64.signBit negative + binary64.infinity)

end Xdr.Number
