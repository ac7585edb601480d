import Xdr.EnumClass
import Xdr.Wire.Bytes

/-!
# Writing to the wire

A writer appends to its output, and checks each value before it writes it, but for the storage of
bytes and the type of their number. A writer of several parts that fails keeps the parts that it has
written.
-/

namespace Xdr

open scoped Power

abbrev Output := Array UInt8

abbrev Write := ExceptT Fault (StateM Output) Unit

structure Conduct where
  text : Value → Except Fault String
  equals : Int → Value → Except Fault Bool
  truth : Value → Except Fault Bool
  variant : EnumClass → Value → Except Fault Value
  lacks : Value → String → Bool

namespace Write

def fail (f : EncodeFault) : Write := throw (.encode f)

def settle {α : Type} : Except Fault α → ExceptT Fault (StateM Output) α
  | .ok a => pure a
  | .error f => throw f

def refuse (c : Conduct) (v : Value) (reason : String → EncodeFault) : Write :=
  match c.text v with
  | .ok shown => fail (reason shown)
  | .error f => throw f

def put (bs : List UInt8) : Write := modify fun (out : Output) => out.appendList bs

/-! ### Scalars -/

def failWith (n : Int) (f : EncodeFault) : Write :=
  if Number.isWritable n then fail f else throw .badValue

def number (target : Builtin) (width : Nat) (v : Value) : Write :=
  match v.integer? with
  | none => fail (.notAnInteger target v.typeName)
  | some n =>
    match target.range? with
    | some (low, high) =>
      if low ≤ n && n ≤ high then put (Wire.signedBytes width n)
      else failWith n (.outOfRange target n)
    | none => failWith n (.outOfRange target n)

/-- A variant cannot be written as an integer: it cannot be compared with the bounds of the type, or
it is beyond them and cannot be put into the message. -/
def isIncomparable (c : Conduct) (target : Builtin) (v : Value) : Bool :=
  match v.integer?, target.range? with
  | some n, some (low, high) =>
    c.lacks v "__ge__" || (low ≤ n && c.lacks v "__le__") ||
      (!(low ≤ n && n ≤ high) && (c.lacks v "__format__" || c.lacks v "__str__"))
  | _, _ => false

def integer (c : Conduct) (target : Builtin) (width : Nat) (v : Value) : Write :=
  if isIncomparable c target v then throw .notApplicable else number target width v

def float (c : Conduct) (v : Value) : Write :=
  let refuseFor (reason : FloatReason) := refuse c v (.notAFloat .float · reason)
  if c.lacks v "__float__" then refuseFor .notANumber else
  match v with
  | .float bits =>
    match Number.narrow? bits.toNat with
    | some narrow => put (Wire.bigEndian 4 narrow)
    | none => refuseFor .tooLarge
  | _ =>
    match v.wholeNumber?.bind Number.ofInteger? with
    | none => refuseFor .notANumber
    | some bits =>
      match Number.narrow? bits with
      | some narrow => put (Wire.bigEndian 4 narrow)
      | none => refuseFor .integerTooLarge

def double (c : Conduct) (v : Value) : Write :=
  if c.lacks v "__float__" then refuse c v (.notAFloat .double · .notANumber) else
  match v with
  | .float bits => put (Wire.bigEndian 8 bits.toNat)
  | _ =>
    match v.wholeNumber?.bind Number.ofInteger? with
    | some bits => put (Wire.bigEndian 8 bits)
    | none => refuse c v (.notAFloat .double · .notANumber)

def bool (c : Conduct) (v : Value) : Write := do
  if (← settle (c.equals 0 v)) then put (Wire.bigEndian 4 (if ← settle (c.truth v) then 1 else 0))
  else if (← settle (c.equals 1 v)) then
    put (Wire.bigEndian 4 (if ← settle (c.truth v) then 1 else 0))
  else refuse c v .notABool

def variant (n : Int) : Write :=
  if -(2 ^ (31 : Nat)) ≤ n && n < 2 ^ (31 : Nat) then put (Wire.signedBytes 4 n) else throw .badFormat

/-- A variant of an enum, or anything that equals its number. A variant whose enum has a number under
the name of what turns variants into numbers is not written. -/
def enum (c : Conduct) (e : EnumClass) (v : Value) : Write :=
  match c.variant e v with
  | .ok found => if e.hasPlain "__int__" then throw .notApplicable else variant (found.integer?.getD 0)
  | .error .badValue => refuse c v (.notAMember (Naming.globalName e.name))
  | .error f => throw f

def length (n : Value) (bound : Option Int) : Write :=
  match bound with
  | none => number .uint 4 n
  | some b =>
    match n.exceeds? b with
    | none => throw .notApplicable
    | some true => failWith (n.integer?.getD 0) (.tooLong n.numberText b)
    | some false => number .uint 4 n

def scalar (c : Conduct) (b : Builtin) (v : Value) : Write :=
  match b with
  | .int => integer c .int 4 v
  | .uint => integer c .uint 4 v
  | .hyper => integer c .hyper 8 v
  | .uhyper => integer c .uhyper 8 v
  | .float => float c v
  | .double => double c v
  | .bool => bool c v
  | _ => throw .notApplicable

/-! ### Byte sequences -/

/-- Bytes can only be copied from where they lie together. -/
def copied (storage : Storage) (bs : List UInt8) : Write :=
  if storage = .sparse then throw .notApplicable else put bs

def padded (storage : Storage) (bs : List UInt8) : Write :=
  copied storage (bs ++ List.replicate (padding bs.length) 0)

def fixedOpaque (n : Int) (v : Value) : Write :=
  match v with
  | .bytes bs storage =>
    if bs.length = n then padded storage bs else fail (.opaqueLength (toString n) bs.length)
  | _ => throw .notApplicable

/-- Bytes whose number is given as any value. If it equals their number but is no whole number, this
is found only behind the bytes, where the zeros are counted. -/
def countedOpaque (c : Conduct) (n v : Value) : Write :=
  match v with
  | .bytes bs storage =>
    if n.isNumber bs.length then
      if n.wholeNumber?.isSome then padded storage bs
      else do
        copied storage bs
        throw .notApplicable
    else
      match n with
      | .str s => fail (.opaqueLength s bs.length)
      | _ => refuse c n (.opaqueLength · bs.length)
  | _ => throw .notApplicable

/-- The length is written before the bytes are copied. -/
def varOpaque (bound : Option Int) (v : Value) : Write :=
  match v with
  | .bytes bs storage => do
    length (.int bs.length) bound
    padded storage bs
  | _ => throw .notApplicable

def string (bound : Option Int) (v : Value) : Write :=
  match v with
  | .str s => varOpaque bound (.bytes (Wire.utf8 s) .fixed)
  | _ => fail (.notAString v.typeName)

/-! ### Composites -/

def flag (present : Bool) : Write := put (Wire.bigEndian 4 (if present then 1 else 0))

def optional (v : Value) (item : Value → Write) : Write :=
  if v.isNull then flag false
  else do
    flag true
    item v

def each (item : Value → Write) : List Value → Write
  | [] => return
  | v :: rest => do
    item v
    each item rest

def fixedArray (n : Int) (elements : Option (List Value)) (item : Value → Write) : Write :=
  match elements with
  | none => throw .notApplicable
  | some items =>
    if items.length = n then each item items else fail (.arrayLength n items.length)

def array (bound : Option Int) (elements : Option (List Value)) (item : Value → Write) : Write :=
  match elements with
  | none => throw .notApplicable
  | some items => do
    length (.int items.length) bound
    each item items

end Write

/-! ### Sizes -/

def stringSize (s : String) : Nat := 4 + padded (Wire.utf8 s).length

def opaqueSize (bs : List UInt8) : Nat := 4 + padded bs.length

end Xdr
