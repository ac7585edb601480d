import Xdr.Codec.Conduct

/-!
# Decoding instances

A type is decoded field by field; a union reads its discriminant and decodes the arm that it
selects.
-/

namespace Xdr

namespace Unpack

def settle {α : Type} : Except Fault α → Read α
  | .ok a => pure a
  | .error f => throw f

def values (d : Decoder) : List Slot → Read (List Value)
  | [] => return []
  | s :: rest => do
    let v ← s.form.read d
    return v :: (← values d rest)

/-- The fields before the link of all nodes, last node first. -/
def heads (d : Decoder) (c : ChainBody) : Nat → List (List Value) → Read (List (List Value))
  | 0, _ => throw .tooDeep
  | n + 1, done => do
    let head ← values d c.before
    if ← Read.flag then heads d c n (head :: done) else return head :: done

/-- A link within the typedefs that stand between the nodes. -/
def wrap (d : Decoder) (c : ChainBody) (v : Value) : Except Fault Value :=
  match c.wrappers.findSome? fun w => if let .nothing f := w.2 then some f else none with
  | some f => .error f
  | none => c.wrappers.foldrM (fun w inner => w.2.call d.make [inner]) v

def nodes (d : Decoder) (key : ClassKey) (c : ChainBody) :
    List (List Value) → Value → Read Value
  | [], next => return next
  | head :: rest, next => do
    let link ← settle (wrap d c next)
    let tail ← values d c.behind
    let node ← settle (d.make key (head ++ link :: tail))
    nodes d key c rest node

def chain (m : Module) (d : Decoder) (n : Nat) (key : ClassKey) (c : ChainBody) : Read Value := do
  let found ← heads d c n []
  settle m.canReverse
  nodes d key c found .null

/-- The first branch with a label that equals the discriminant. -/
def select (m : Module) (disc : Value) : List Branch → Except Fault (Option Branch)
  | [] => .ok none
  | b :: rest => do
    if ← b.labels.anyM fun label => do m.truth (← m.equal disc (← label)) then return some b
    else select m disc rest

/-- The discriminant as a fault quotes it. -/
def shown (m : Module) (disc : Value) : Except Fault String :=
  if m.isSpoilt disc "__str__" || m.isSpoilt disc "__format__" then .error .notApplicable
  else if disc.wholeNumber?.isSome then .ok disc.numberText
  else m.text disc

def build (m : Module) (d : Decoder) (b : Branch) (disc : Value) : Read Value := do
  let target ← settle b.target
  match b.payload with
  | none => settle (m.invoke target [disc] [])
  | some form =>
    let payload ← form.read d
    settle (m.invoke target [payload, disc] [])

def union (m : Module) (d : Decoder) (u : UnionBody) : Read Value := do
  let disc ← u.disc.read d
  match ← settle (select m disc u.branches), u.fallback with
  | some b, _ => build m d b disc
  | none, some b => build m d b disc
  | none, none =>
    let start := (← Read.offset) - u.discSize
    Read.fail (.unknownDiscriminant u.name (disc.wholeNumber?.getD 0) (← settle (shown m disc)) start)

def own (m : Module) (d : Decoder) (n : Nat) (key : ClassKey) : Read Value :=
  let reader :=
    match key with
    | .arm union _ => ClassKey.type union
    | _ => key
  if !(m.head? reader).all (·.isReadable) then throw .notApplicable
  else
    match m.body? reader with
    | some (.record s) => do settle (d.make reader (← values d s))
    | some (.chain c) => chain m d n reader c
    | some (.union u) => union m d u
    | some (.arm _) => throw .notApplicable
    | none => throw .unimplemented

end Unpack

namespace Module

def unpack (m : Module) (strict : Bool) : Nat → ClassKey → Read Value
  | 0, _ => throw .tooDeep
  | n + 1, key =>
    Unpack.own m ⟨strict, m.unpack strict n, fun key args => m.construct key args []⟩ (n + 1) key

/-- How deep instances can be nested in so many bytes: enough for any data. -/
def levels (m : Module) (size : Nat) : Nat := m.ranks * (size / 4 + 1) + 1

def decodeRun (m : Module) (strict : Bool) (key : ClassKey) (data : List UInt8) :
    Except Fault Value × Input :=
  m.unpack strict (m.levels data.length) key (Input.ofBytes data)

def decodeInstance (m : Module) (strict : Bool) (key : ClassKey) (data : List UInt8) :
    Except Fault (Value × List UInt8) :=
  match m.decodeRun strict key data with
  | (.ok v, input) => .ok (v, input.rest)
  | (.error f, _) => .error f

end Module

end Xdr
