import Xdr.Codec.Conduct

/-!
# Encoding instances

An instance is encoded by its own class, whatever type was declared where it stands.
-/

namespace Xdr

namespace Pack

def slots (m : Module) (e : Encoder) (owner : Value) : List Slot → Write
  | [] => return
  | s :: rest =>
    match m.attr owner s.attr with
    | .error f => throw f
    | .ok v => do
      s.form.write e v
      slots m e owner rest

/-- The fields behind the link, from the last node to the first. -/
def tails (m : Module) (e : Encoder) (c : ChainBody) : List Value → Write
  | [] => return
  | node :: rest => do
    slots m e node c.behind
    tails m e c rest

def chain (m : Module) (e : Encoder) (c : ChainBody) : Nat → Value → List Value → Write
  | 0, _, _ => throw .tooDeep
  | n + 1, node, visited =>
    if node.isNull then
      if c.behind.isEmpty then return
      else
        match m.canReverse with
        | .ok _ => tails m e c visited
        | .error f => throw f
    else do
      slots m e node c.before
      match m.next c node with
      | .error f => throw f
      | .ok next =>
        Write.flag !next.isNull
        chain m e c n next (node :: visited)

/-- The discriminant is one that the arm lists, or none that another arm lists. -/
def checkCases (m : Module) (e : Encoder) (key : ClassKey) (a : ArmBody) (disc : Value) : Write :=
  match ((m.head? key).bind (·.cases)), m.hashable (disc.depth + 1) disc with
  | none, _ => throw .notApplicable
  | _, .error f => throw f
  | some cases, .ok _ =>
    let listed := cases.any disc.isNumber
    if a.isDefault then
      if listed then Write.refuse e.toConduct disc (.explicitArm · key) else return
    else if listed then return
    else Write.refuse e.toConduct disc (.wrongArm · key)

def check (m : Module) (e : Encoder) (key : ClassKey) (a : ArmBody) (owner disc : Value) : Write :=
  match owner, m.attr owner "_check_discriminant" with
  | .object _ fields, .ok v =>
    let isMethod := (fields.lookup "_check_discriminant").isNone && v.typeName = "function"
    if isMethod then checkCases m e key a disc
    else
      match m.invoke v [disc] [] with
      | .ok _ => return
      | .error f => throw f
  | _, _ => throw .noAttribute

def arm (m : Module) (e : Encoder) (key : ClassKey) (a : ArmBody) (owner : Value) : Write :=
  match m.attr owner a.disc.attr with
  | .error f => throw f
  | .ok disc => do
    check m e key a owner disc
    slots m e owner (a.disc :: a.payload.toList)

/-- Packs a value by its own class; other values cannot pack themselves, and a class is not packed
like its instances. `n` bounds the nodes of a list. -/
def own (m : Module) (e : Encoder) (n : Nat) (v : Value) : Write :=
  match v with
  | .member _ _ number =>
    if m.isSpoilt v "__int__" then throw .notApplicable else Write.variant number
  | .object key _ => do
    Write.settle (m.reachable v "pack")
    match m.body? key with
    | some (.record s) => slots m e v s
    | some (.chain c) => chain m e c n v []
    | some (.arm a) => arm m e key a v
    | some (.union _) => throw .unimplemented
    | none => throw .unimplemented
  | .cls _ => throw .notApplicable
  | _ => throw .noAttribute

end Pack

namespace Module

def pack (m : Module) : Nat → Value → Write
  | 0, _ => throw .tooDeep
  | n + 1, v => Pack.own m ⟨m.conduct, m.pack n, m.elements⟩ (n + 1) v

/-- An encoder for forms without classes. -/
def plainEncoder (m : Module) : Encoder := ⟨m.conduct, fun _ => throw .noAttribute, m.elements⟩

def encodeRun (m : Module) (v : Value) : Except Fault Unit × Output := m.pack (v.depth + 2) v #[]

def encodeInstance (m : Module) (v : Value) : Except Fault (List UInt8) :=
  match m.encodeRun v with
  | (.ok _, out) => .ok out.toList
  | (.error f, _) => .error f

end Module

end Xdr
