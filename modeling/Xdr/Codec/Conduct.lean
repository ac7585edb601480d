import Xdr.Codec.Equality

/-!
# The conduct of values

What the operations on the wire ask of values, answered by a loaded module: how they are shown, what
they equal, whether they count as true, and which variant of an enum they stand for.
-/

namespace Xdr

namespace Module

def kind? (m : Module) (key : ClassKey) : Option ClassKind := (m.head? key).map fun h => h.kind

/-- A value that can be looked up in a set, nested less than `n` levels deep: lists and changeable
instances cannot. A typedef asks a builtin, which something may have taken the place of. -/
def hashable (m : Module) : Nat → Value → Except Fault Unit
  | 0, _ => .error .tooDeep
  | n + 1, v =>
    match v with
    | .list _ => .error .notApplicable
    | .bytes _ .growable => .error .notApplicable
    | .bytes _ .pairs => .error .badValue
    | .object key fields =>
      match m.kind? key with
      | some .root => .ok ()
      | some .union => if (m.special? key "__hash__").isSome then .error .notApplicable else .ok ()
      | some .typedef => do
        m.builtinCall "hash" [.thing "tuple"]
        fields.forM fun f => m.hashable n f.2
      | _ => .error .notApplicable
    | _ => if m.isSpoilt v "__hash__" || m.isSpoilt v "__eq__" then .error .notApplicable else .ok ()

def equalsInteger (m : Module) (n : Int) (v : Value) : Except Fault Bool := do
  m.truth (← m.equal (.int n) v)

/-- The variant of an enum with the number of a value. Values that can be looked up are, others are
compared with each number. Before a value is refused it is shown. -/
def variantOf (m : Module) (e : EnumClass) (v : Value) : Except Fault Value := do
  if let .member enum _ _ := v then
    if enum = e.name then return v
  let found ←
    match m.hashable (v.depth + 1) v with
    | .ok _ => e.search fun n => .ok (v.isNumber n)
    | .error .notApplicable => e.search fun n => m.equalsInteger n v
    | .error f => throw f
  match found with
  | some variant => return variant
  | none =>
    let _ ← m.text v
    throw e.missing

def invoke (m : Module) (callee : Value) (args : List Value) (named : List (String × Value)) :
    Except Fault Value :=
  match callee with
  | .cls key =>
    match m.enumOf? key with
    | some e => EnumClass.call (m.variantOf e) args named
    | none => m.construct key args named
  | _ => m.call callee args named

def conduct (m : Module) : Conduct :=
  { text := m.text
    equals := m.equalsInteger
    truth := m.truth
    variant := m.variantOf
    lacks := m.isSpoilt }

end Module

end Xdr
