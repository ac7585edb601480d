import Xdr.EnumClass
import Xdr.Wire.Bytes

/-!
# Reading from the wire

A reader takes bytes from its input, most often from the front on. A reader that fails keeps what it
has taken, and its fault tells where the offending bytes begin.
-/

namespace Xdr

/-- The data of a reader, what lies before it, and where it stands. -/
structure Input where
  data : List UInt8
  rest : List UInt8
  offset : Int
deriving DecidableEq

namespace Input

def ofBytes (bs : List UInt8) : Input := ⟨bs, bs, 0⟩

def remaining (i : Input) : Int := i.data.length - i.offset

def cutIndex (size : Nat) (i : Int) : Nat := if 0 ≤ i then i.toNat else (i + size).toNat

def window (data : List UInt8) (start stop : Int) : List UInt8 :=
  let first := cutIndex data.length start
  (data.drop first).take (cutIndex data.length stop - first)

def atOffset (data : List UInt8) (offset : Int) : Input :=
  ⟨data, data.drop (cutIndex data.length offset), offset⟩

end Input

abbrev Read (α : Type) := ExceptT Fault (StateM Input) α

namespace Read

def fail {α : Type} (f : DecodeFault) : Read α := throw (.decode f)

def offset : Read Int := do return (← get).offset

def move (n : Int) : Read (List UInt8) := do
  let input ← get
  if input.remaining < n then fail (.insufficientBytes n input.remaining input.offset)
  else
    set (Input.atOffset input.data (input.offset + n))
    return Input.window input.data input.offset (input.offset + n)

def take (n : Int) : Read (List UInt8) := do
  let input ← get
  match n, input.offset with
  | .ofNat k, .ofNat start =>
    let chunk := input.rest.take k
    if chunk.length = k then
      set (⟨input.data, input.rest.drop k, (start + k : Nat)⟩ : Input)
      return chunk
    else fail (.insufficientBytes k input.rest.length start)
  | _, _ => move n

def chunk (width : Nat) : Read (List UInt8) := do
  let input ← get
  let taken ← take width
  match input.offset with
  | .ofNat _ => return taken
  | .negSucc back =>
    if width ≤ back + 1 && back + 1 ≤ input.data.length then
      return (input.data.drop (input.data.length - (back + 1))).take width
    else throw .badFormat

def skipPadding (strict : Bool) (n : Int) : Read Unit := do
  if paddingInt n != 0 then
    let start ← offset
    let padding ← take (paddingInt n)
    if strict && padding.any (· != 0) then fail (.invalidPadding start)

/-! ### Scalars -/

def word (width : Nat) : Read Nat := do return Wire.natOfBytes (← chunk width)

def signedWord (width : Nat) : Read Int := do return Wire.signed width (← word width)

def bool : Read Bool := do
  let start ← offset
  let n ← signedWord 4
  if n = 0 then return false
  else if n = 1 then return true
  else fail (.invalidBoolean n start)

def enum (e : EnumClass) : Read Value := do
  let start ← offset
  let n ← signedWord 4
  match e.member (.int n) with
  | .ok v => return v
  | .error .badValue => fail (.unknownEnumValue (Naming.globalName e.name) n start)
  | .error f => throw f

def length (bound : Option Int) : Read Nat := do
  let start ← offset
  let n ← word 4
  match bound with
  | some b => if b < n then fail (.invalidLength n b start) else return n
  | none => return n

def scalar : Builtin → Read Value
  | .int => return .int (← signedWord 4)
  | .uint => return .int (← word 4)
  | .hyper => return .int (← signedWord 8)
  | .uhyper => return .int (← word 8)
  | .float => return .float (UInt64.ofNat (Number.widen (← word 4)))
  | .double => return .float (UInt64.ofNat (← word 8))
  | .bool => return .bool (← bool)
  | _ => throw .notApplicable

/-! ### Byte sequences -/

def fixedOpaque (strict : Bool) (n : Int) : Read (List UInt8) := do
  let data ← take n
  skipPadding strict n
  return data

def varOpaque (strict : Bool) (bound : Option Int) : Read (List UInt8) := do
  fixedOpaque strict (← length bound)

def string (strict : Bool) (bound : Option Int) : Read String := do
  let start ← offset
  let data ← varOpaque strict bound
  match Wire.textOfBytes data with
  | .ok s => return s
  | .error f => fail (.nonUtf8 f.reason start)

/-! ### Composites -/

def flag : Read Bool := do
  let start ← offset
  let n ← word 4
  if n = 0 then return false
  else if n = 1 then return true
  else fail (.invalidOptionalFlag n start)

def optional (item : Read Value) : Read Value := do
  if ← flag then item else return .null

def repeated (item : Read Value) : Nat → List Value → Read (List Value)
  | 0, done => return done.reverse
  | n + 1, done => do
    let v ← item
    repeated item n (v :: done)

def fixedArray (n : Int) (item : Read Value) : Read Value := do
  return .list (← repeated item n.toNat [])

def array (bound : Option Int) (item : Read Value) : Read Value := do
  fixedArray (← length bound) item

end Read

end Xdr
