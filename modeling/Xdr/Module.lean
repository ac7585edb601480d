import Xdr.Codec.Measure
import Xdr.Codec.Pack
import Xdr.Codec.Unpack

/-!
# Generated modules at work

What can be asked of a module once it is loaded: what its names stand for, the encoding, the size and
the text of values, decoding by a type, and what a class says about itself.
-/

namespace Xdr

namespace Module

def fixed : List (String × Value) := [("__dict__", .thing "dict"), ("__class__", .thing "type")]

def standing : List (String × Value) :=
  [("__builtins__", .thing "dict"), ("__annotations__", .thing "dict")]

def top (m : Module) (name : String) : Except Fault Value :=
  let found := fixed.lookup name <|> m.names.lookup name <|> standing.lookup name <|>
    Inherited.ofPlain? (.thing "module") name
  match found, m.names.lookup "__getattr__" with
  | some v, _ => .ok v
  | none, some v => m.invoke v [.str name] []
  | none, none => .error .noAttribute

def find (m : Module) (path : String) : Except Fault Value :=
  match path.splitOn "." with
  | [] => .error .noAttribute
  | first :: rest => rest.foldlM (fun v name => m.attr v name) =<< m.top first

def publicNames (m : Module) : Except Fault Value :=
  match m.top "__all__" with
  | .error .noAttribute => .ok .null
  | found => found

def numberOf (m : Module) (v : Value) : Except Fault Int :=
  if m.isSpoilt v "__int__" then .error .notApplicable else .ok (v.integer?.getD 0)

/-- The fields of a value with what they hold. A class is taken for an instance here: it has what is
bound to the names of its fields. Classes without fields have none to tell, and something else may
stand where the fields of a class are listed. -/
def contents (m : Module) (v : Value) : Except Fault (List (String × Value)) :=
  let listing := "__dataclass_fields__"
  match v with
  | .object key fields => do
    m.reachable v listing
    if (fields.lookup listing).isSome then throw .noAttribute
    if (m.kind? key).any (·.isBare) then
      throw (if (m.special? key listing).isSome then .noAttribute else .notApplicable)
    return fields
  | .cls key =>
    match m.head? key with
    | none => .error .notApplicable
    | some h =>
      if (h.own.lookup listing).any (·.typeName = "type") then .error .noAttribute
      else if h.kind.isBare then .error .notApplicable
      else h.fields.mapM fun f => do return (f.name, ← m.attr v f.name)
  | _ => .error .notApplicable

def encode (m : Module) (v : Value) : Except Fault (List UInt8) :=
  match v with
  | .str s => .ok (Wire.utf8 s)
  | _ => m.encodeInstance v

def classOf (v : Value) : Except Fault Value :=
  match v with
  | .object key _ => .ok (.cls key)
  | .member enum _ _ => .ok (.cls (.enum enum))
  | _ => .error .noAttribute

def isWithin (key : ClassKey) : ClassKey → Bool
  | .arm union attr => key = .arm union attr || key = .type union
  | found => key = found

/-- What was read is an instance of the class that was asked for. If it is not, it is another arm, and
the discriminant of an arm is its last field. -/
def checkArm (m : Module) (key : ClassKey) (v : Value) : Except Fault Unit :=
  match v with
  | .object found fields =>
    if isWithin key found then .ok ()
    else
      match m.kind? found, fields.getLast? with
      | some .union, _ => .error .notApplicable
      | _, some (_, disc) =>
        match Unpack.shown m disc with
        | .error f => .error f
        | .ok shown =>
          .error (.decode (.unknownDiscriminant key.qualifiedName (disc.wholeNumber?.getD 0) shown 0))
      | _, none => .error .notApplicable
  | _ => .error .notApplicable

def decodeEnum (m : Module) (key : ClassKey) (data : List UInt8) :
    Except Fault (Value × List UInt8) :=
  match m.enumOf? key with
  | none => .error .noAttribute
  | some e =>
    match Read.enum e (Input.ofBytes data) with
    | (.ok v, input) => .ok (v, input.rest)
    | (.error f, _) => .error f

def decodeAs (m : Module) (type : Value) (strict : Option Bool) (data : List UInt8) :
    Except Fault (Value × List UInt8) :=
  match type with
  | .member name _ _ => m.decodeEnum (.enum name) data
  | .cls key => do
    if key.isEnum then return ← m.decodeEnum key data
    let strict ← strict.elim ((m.attr type "STRICT_PADDING").map Value.truth) .ok
    let (v, rest) ← m.decodeInstance strict key data
    match m.kind? key with
    | some .union | some .arm => m.checkArm key v
    | _ => pure ()
    return (v, rest)
  | _ => .error .noAttribute

def decode (m : Module) (path : String) (strict : Option Bool) (data : List UInt8) :
    Except Fault (Value × List UInt8) := do
  m.decodeAs (← m.find path) strict data

structure Recoding where
  size : Nat
  encoded : Nat
  same : Bool
  equal : Value
  rest : Nat

def recode (m : Module) (path : String) (data : List UInt8) : Except Fault Recoding := do
  let (v, rest) ← m.decode path none data
  let (again, _) ← m.decode path none data
  let bytes ← m.encode v
  let size ← m.wireSize v
  return {
    size
    encoded := bytes.length
    same := bytes = data.take (data.length - rest.length)
    equal := ← m.equal v again
    rest := rest.length }

structure RoundTrip where
  bytes : List UInt8
  size : Nat
  value : Value
  equal : Value
  rest : Nat

def roundTrip (m : Module) (v : Value) (path : Option String) : Except Fault RoundTrip := do
  let bytes ← m.encode v
  let size ← m.wireSize v
  let type ← path.elim (classOf v) m.find
  let (found, rest) ← m.decodeAs type none bytes
  return { bytes, size, value := found, equal := ← m.equal found v, rest := rest.length }

inductive Description
  | enum (name : String) (members : List (String × Int))
  /-- For unions and their arms also the listed discriminants, and whether the arm is the default; for
  all but unions also names and annotations of the fields. -/
  | cls (name : String) (wireSize : Value) (strict : Value) (cases : Option (List Int × Value))
      (fields : Option (List (String × String)))

def describe (m : Module) (type : Value) : Except Fault Description :=
  match type with
  | .cls key =>
    match m.enumOf? key, m.head? key with
    | some e, _ => do
      let members ← e.members.mapM fun (variant, n) => do
        return (Naming.enumMemberName variant, ← m.numberOf (.member e.name variant n))
      return .enum (Naming.globalName e.name) members
    | none, none => .error .noAttribute
    | none, some h => do
      let wireSize ← m.attr type "WIRE_SIZE"
      let strict ← m.attr type "STRICT_PADDING"
      let cases ←
        match h.kind, h.cases with
        | .union, some cases | .arm, some cases =>
          pure (some (sortNumbers cases, ← m.attr type "DEFAULT"))
        | .union, none | .arm, none => throw .notApplicable
        | _, _ => pure none
      let fields := h.fields.map fun f => (f.name, f.hint)
      return .cls key.qualifiedName wireSize strict cases
        (if h.kind.isBare then none else some fields)
  | _ => .error .noAttribute

end Module

end Xdr
