import Xdr.Codec.Show

/-!
# Sizes of instances

The size of an instance is computed without encoding it: types with a fixed size give their
constant, lists are measured by the elements that they have.
-/

namespace Xdr

namespace Measure

def total (size : Value → Except Fault Nat) : Nat → List Value → Except Fault Nat
  | sum, [] => .ok sum
  | sum, v :: rest =>
    match size v with
    | .ok n => total size (sum + n) rest
    | .error f => .error f

def elements (m : Module) (self : Value → Except Fault Nat) (size : Option Nat) (v : Value) :
    Except Fault Nat :=
  match m.elements v, size with
  | none, _ => .error .notApplicable
  | some vs, some n => .ok (n * vs.length)
  | some vs, none => total self 0 vs

/-- The size of a field, by what it is known to add. -/
def share (m : Module) (self : Value → Except Fault Nat) (e : Share) (v : Value) :
    Except Fault Nat :=
  match e with
  | .fixed n => .ok n
  | .opaqueBytes => Measurer.ofBytes v
  | .text => Measurer.ofText v
  | .optional element =>
    if v.isNull then .ok 4
    else
      match element with
      | some n => .ok (4 + n)
      | none => (self v).map (4 + ·)
  | .items before element => (elements m self element v).map (before + ·)
  | .own => self v
  | .unknown => .error .noAttribute

def slot (m : Module) (self : Value → Except Fault Nat) (owner : Value) (s : Slot) :
    Except Fault Nat :=
  match s.share with
  | .fixed n => .ok n
  | .unknown => .error .noAttribute
  | e => do share m self e (← m.attr owner s.attr)

def slots (m : Module) (self : Value → Except Fault Nat) (owner : Value) :
    List Slot → Except Fault Nat
  | [] => .ok 0
  | s :: rest => do
    let n ← slot m self owner s
    return n + (← slots m self owner rest)

def chain (m : Module) (self : Value → Except Fault Nat) (c : ChainBody) :
    Nat → Nat → Value → Except Fault Nat
  | 0, _, _ => .error .tooDeep
  | n + 1, sum, node =>
    if node.isNull then .ok sum
    else do
      let size ← slots m self node (c.before ++ c.behind)
      chain m self c n (sum + size + 4) (← m.next c node)

def own (m : Module) (self : Value → Except Fault Nat) (n : Nat) (v : Value) : Except Fault Nat :=
  match v with
  | .member _ _ _ => .ok 4
  | .object key _ => do
    m.reachable v "wire_size"
    match m.size? key, m.body? key with
    | some size, _ => .ok size
    | none, some (.record s) => slots m self v s
    | none, some (.chain c) => chain m self c n 0 v
    | none, some (.arm a) => (slots m self v a.payload.toList).map (a.discSize + ·)
    | none, some (.union _) => .error .unimplemented
    | none, none => .error .unimplemented
  | .cls _ => .error .notApplicable
  | _ => .error .noAttribute

end Measure

namespace Module

def measure (m : Module) : Nat → Value → Except Fault Nat
  | 0, _ => .error .tooDeep
  | n + 1, v => Measure.own m (m.measure n) (n + 1) v

def wireSize (m : Module) (v : Value) : Except Fault Nat := m.measure (v.depth + 2) v

end Module

end Xdr
