import Xdr.Wire.Reader
import Xdr.Wire.Writer

/-!
# Forms on the wire

A form says how a value is laid out: a scalar, a byte sequence, or an optional value or an array of
another form. A form may mention what a module defines.
-/

namespace Xdr

inductive Mention
  | enum (e : EnumClass)
  | variant (e : EnumClass)
  | cls (key : ClassKey)
  | other
  | nothing (f : Fault)
deriving DecidableEq

structure Decoder where
  strict : Bool
  unpack : ClassKey → Read Value
  make : ClassKey → List Value → Except Fault Value

structure Encoder extends Conduct where
  pack : Value → Write
  elements : Value → Option (List Value)

namespace Mention

def call (make : ClassKey → List Value → Except Fault Value) (m : Mention) (args : List Value) :
    Except Fault Value :=
  match m with
  | enum e => EnumClass.call e.member args []
  | cls key => make key args
  | nothing f => .error f
  | _ => .error .notApplicable

def readVariant (d : Decoder) : Mention → Read Value
  | enum e => Read.enum e
  | nothing f => throw f
  | m => do
    let n ← Read.signedWord 4
    m.call d.make [.int n]

def readInstance (d : Decoder) : Mention → Read Value
  | enum e => Read.enum e
  | variant e => Read.enum e
  | cls key => d.unpack key
  | other => throw .noAttribute
  | nothing f => throw f

def writeVariant (c : Encoder) (m : Mention) (v : Value) : Write :=
  match m with
  | enum e => Write.enum c.toConduct e v
  | nothing f => throw f
  | _ => throw .notApplicable

end Mention

inductive Form
  | scalar (b : Builtin)
  | enum (m : Mention)
  | cls (m : Mention)
  | length (bound : Option Int)
  | fixedOpaque (n : Int)
  | varOpaque (bound : Option Int)
  | string (bound : Option Int)
  | flag
  | optional (item : Form)
  | fixedArray (n : Int) (item : Form)
  | array (bound : Option Int) (item : Form)
deriving DecidableEq, Inhabited

namespace Form

def read (d : Decoder) : Form → Read Value
  | scalar b => Read.scalar b
  | enum m => m.readVariant d
  | cls m => m.readInstance d
  | length bound => return .int (← Read.length bound)
  | fixedOpaque n => return .bytes (← Read.fixedOpaque d.strict n) .view
  | varOpaque bound => return .bytes (← Read.varOpaque d.strict bound) .view
  | string bound => return .str (← Read.string d.strict bound)
  | flag => return .bool (← Read.flag)
  | optional item => Read.optional (item.read d)
  | fixedArray n item => Read.fixedArray n (item.read d)
  | array bound item => Read.array bound (item.read d)

def write (c : Encoder) : Form → Value → Write
  | scalar b, v => Write.scalar c.toConduct b v
  | enum m, v => m.writeVariant c v
  | cls _, v => c.pack v
  | length bound, v => Write.length v bound
  | fixedOpaque n, v => Write.fixedOpaque n v
  | varOpaque bound, v => Write.varOpaque bound v
  | string bound, v => Write.string bound v
  | flag, v => Write.flag v.truth
  | optional item, v => Write.optional v (item.write c)
  | fixedArray n item, v => Write.fixedArray n (c.elements v) (item.write c)
  | array bound item, v => Write.array bound (c.elements v) (item.write c)

/-- The form is written by one call of the writer. -/
def isSimple : Form → Bool
  | cls _ | optional _ | fixedArray _ _ | array _ _ => false
  | _ => true

end Form

/-- What a writer can be called for by itself: a simple form, bytes whose number is any value, or a
composite whose items are written by another call. -/
inductive Method
  | simple (form : Form) (isSimple : form.isSimple = true)
  | counted (n : Value)
  | optional (item : Method)
  | fixedArray (n : Int) (item : Method)
  | array (bound : Option Int) (item : Method)

def Method.write (c : Encoder) : Method → Value → Write
  | simple form _, v => form.write c v
  | counted n, v => Write.countedOpaque c.toConduct n v
  | optional item, v => Write.optional v (item.write c)
  | fixedArray n item, v => Write.fixedArray n (c.elements v) (item.write c)
  | array bound item, v => Write.array bound (c.elements v) (item.write c)

def Schema.elementForm (s : Schema) (mention : String → Mention) : Base → Form
  | .builtin b => .scalar b
  | .named name =>
    match s.find? name with
    | some ⟨.enum _, _, _, _, _⟩ => .enum (mention name)
    | _ => .cls (mention name)

def Schema.form (s : Schema) (mention : String → Mention) (shape : Shape) : Form :=
  let element := s.elementForm mention
  let bound := shape.length.map Int.ofNat
  match shape.base, shape.arity with
  | .builtin .opaqueBytes, .fixed => .fixedOpaque shape.count
  | .builtin .opaqueBytes, _ => .varOpaque bound
  | .builtin .string, _ => .string bound
  | base, .scalar => element base
  | base, .optional => .optional (element base)
  | base, .fixed => .fixedArray shape.count (element base)
  | base, .varying => .array bound (element base)

end Xdr
