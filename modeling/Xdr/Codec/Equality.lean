import Xdr.Codec.Show

/-!
# Equality of values

Two instances are equal when they have the same class and equal fields; numbers are equal by value,
whatever their types, and bytes by content, however they are stored.
-/

namespace Xdr

namespace Equality

def numbers (bs : List UInt8) (storage : Storage) : List Int :=
  ((Value.bytes bs storage).elements?.getD []).filterMap Value.integer?

/-- A growable buffer compares bytes, all others their items. -/
def storedBytes (x : List UInt8) (s : Storage) (y : List UInt8) (t : Storage) : Bool :=
  if s = .growable then x = y else numbers x s = numbers y t

def plain (a b : Value) : Bool :=
  match a, b with
  | .null, .null => true
  | .str x, .str y => x = y
  | .bytes x s, .bytes y t => storedBytes x s y t
  | .float x, .float y => Number.equalsDouble x.toNat y.toNat
  | .float x, _ => b.wholeNumber?.any (Number.equalsInteger x.toNat)
  | _, .float y => a.wholeNumber?.any (Number.equalsInteger y.toNat)
  | .cls x, .cls y => x = y
  | .library x, .library y => x = y
  | .measurer x, .measurer y => x = y
  | .thing x, .thing y => x = y
  | _, _ =>
    match a.wholeNumber?, b.wholeNumber? with
    | some x, some y => x = y
    | _, _ => false

/-- The two are one object. -/
def isSame (a b : Value) : Bool :=
  match a, b with
  | .member e v n, .member f w k => e = f && v = w && n = k
  | _, _ => false

def pairs (m : Module) (self : Value → Value → Except Fault Value) :
    List Value → List Value → Except Fault Bool
  | [], [] => .ok true
  | a :: as, b :: bs =>
    if isSame a b then pairs m self as bs
    else do if ← m.truth (← self a b) then pairs m self as bs else return false
  | _, _ => .ok false

def attrs (m : Module) (v : Value) : List Slot → Except Fault (List Value)
  | [] => .ok []
  | s :: rest => do
    let x ← m.attr v s.attr
    return x :: (← attrs m v rest)

def chain (m : Module) (self : Value → Value → Except Fault Value) (c : ChainBody) :
    Nat → Value → Value → Except Fault Bool
  | 0, _, _ => .error .tooDeep
  | n + 1, a, b =>
    if a.isNull || b.isNull then .ok (a.isNull && b.isNull)
    else do
      let slots := c.before ++ c.behind
      if ← pairs m self (← attrs m a slots) (← attrs m b slots) then
        let x ← m.next c a
        let y ← m.next c b
        chain m self c n x y
      else return false

def isComparing (m : Module) : Value → Bool
  | .object key _ => (m.head? key).any (!·.kind.isBare)
  | _ => false

def comparesFields (m : Module) (v : Value) : Bool :=
  match v with
  | .object key _ => isComparing m v && !m.isBroken key "__eq__" && (m.veil? v).isNone
  | _ => false

/-- What a value says when it is asked whether it equals one that is not of its class. Most cannot
tell. An instance looks at the classes of both first. A union without an arm answers by the arm under
the name for that. -/
def answer (m : Module) (a b : Value) : Except Fault (Option Value) :=
  match a with
  | .object key _ =>
    if isComparing m a then do
      if m.isBroken key "__eq__" then throw .notApplicable
      for v in [b, a] do
        if (m.veil? v).isSome then let _ ← m.attr v "__class__"
      m.builtin "NotImplemented"
    else
      match m.special? key "__eq__" with
      | some arm => (m.call arm [b] []).map some
      | none => .ok none
  | _ => if m.isSpoilt a "__eq__" then .error .notApplicable else .ok none

/-- The class of the second is derived from that of the first. -/
def asksSecond (a b : Value) : Bool :=
  match a, b with
  | .object (.type union) _, .object (.arm found _) _ => union = found
  | _, _ => false

def different (m : Module) (a b : Value) : Except Fault Value := do
  let (first, second) := if asksSecond a b then (b, a) else (a, b)
  if let some v ← answer m first second then return v
  if let some v ← answer m second first then return v
  return .bool false

/-- One of two values that hold no others cannot be compared. A number that is no variant is asked
after the variant it is compared with, but for truth values and floating-point numbers. -/
def isRefused (m : Module) (a b : Value) : Bool :=
  let ignoresSecond :=
    match a with
    | .float _ | .bool _ | .member _ _ _ => true
    | _ => false
  m.isSpoilt a "__eq__" || (!ignoresSecond && m.isSpoilt b "__eq__")

end Equality

namespace Module

def equalAt (m : Module) : Nat → Value → Value → Except Fault Value
  | 0, _, _ => .error .tooDeep
  | n + 1, a, b =>
    match a, b with
    | .list xs, .list ys =>
      if xs.length = ys.length then (Equality.pairs m (m.equalAt n) xs ys).map .bool
      else .ok (.bool false)
    | .object k xs, .object l ys =>
      if k = l && Equality.comparesFields m a then
        match m.body? k with
        | some (.chain c) => (Equality.chain m (m.equalAt n) c (n + 1) a b).map .bool
        | _ => (Equality.pairs m (m.equalAt n) (xs.map (·.2)) (ys.map (·.2))).map .bool
      else Equality.different m a b
    | .object _ _, _ => Equality.different m a b
    | _, .object _ _ => Equality.different m a b
    | _, _ =>
      if Equality.isRefused m a b then .error .notApplicable else .ok (.bool (Equality.plain a b))

def equal (m : Module) (a b : Value) : Except Fault Value :=
  m.equalAt (min a.depth b.depth + 2) a b

end Module

end Xdr
