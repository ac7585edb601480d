/-!
# Text as bytes

The UTF-8 form of a text, and the text of bytes. Bytes that are no text are refused at their first
bad sequence, with the stretch that is bad and the reason.
-/

namespace Xdr.Wire

def continuation (n : Nat) : UInt8 := UInt8.ofNat (0x80 + n % 64)

def utf8Char (c : Char) : List UInt8 :=
  let n := c.toNat
  if n < 0x80 then [UInt8.ofNat n]
  else if n < 0x800 then [UInt8.ofNat (0xC0 + n / 64), continuation n]
  else if n < 0x10000 then
    [UInt8.ofNat (0xE0 + n / 4096), continuation (n / 64), continuation n]
  else
    [UInt8.ofNat (0xF0 + n / 262144), continuation (n / 4096), continuation (n / 64),
     continuation n]

def utf8 (s : String) : List UInt8 := s.toList.flatMap utf8Char

inductive Utf8Reason
  | invalidStart
  | invalidContinuation
  | unexpectedEnd
deriving DecidableEq

def Utf8Reason.message : Utf8Reason → String
  | invalidStart => "invalid start byte"
  | invalidContinuation => "invalid continuation byte"
  | unexpectedEnd => "unexpected end of data"

/-- The bad stretch: where it begins, how many bytes it has, and the reason. -/
structure Utf8Fault where
  start : Nat
  width : Nat
  reason : Utf8Reason
deriving DecidableEq

def isContinuation (b : UInt8) : Bool := 0x80 ≤ b.toNat && b.toNat < 0xC0

def isSecond (first second : UInt8) : Bool :=
  let n := second.toNat
  match first.toNat with
  | 0xE0 => 0xA0 ≤ n && n < 0xC0
  | 0xED => 0x80 ≤ n && n < 0xA0
  | 0xF0 => 0x90 ≤ n && n < 0xC0
  | 0xF4 => 0x80 ≤ n && n < 0x90
  | _ => 0x80 ≤ n && n < 0xC0

def sequenceWidth (b : UInt8) : Nat :=
  let n := b.toNat
  if n < 0x80 then 1
  else if n < 0xC2 then 0
  else if n < 0xE0 then 2
  else if n < 0xF0 then 3
  else if n < 0xF5 then 4
  else 0

def firstBits (b : UInt8) : Nat :=
  match sequenceWidth b with
  | 2 => b.toNat - 0xC0
  | 3 => b.toNat - 0xE0
  | 4 => b.toNat - 0xF0
  | _ => b.toNat

/-- Reads the further bytes of a sequence: `missing` more, after the value `n`; `done` bytes were
good so far. The result is the character with the rest, or the width of the bad stretch. -/
def further (check : UInt8 → Bool) :
    Nat → Nat → Nat → List UInt8 → Except (Nat × Utf8Reason) (Char × List UInt8)
  | 0, _, n, rest => .ok (Char.ofNat n, rest)
  | _ + 1, done, _, [] => .error (done, .unexpectedEnd)
  | missing + 1, done, n, b :: rest =>
    if check b then further isContinuation missing (done + 1) (n * 64 + b.toNat % 64) rest
    else .error (done, .invalidContinuation)

def firstChar (b : UInt8) (rest : List UInt8) : Except (Nat × Utf8Reason) (Char × List UInt8) :=
  match sequenceWidth b with
  | 0 => .error (1, .invalidStart)
  | width + 1 => further (isSecond b) width 1 (firstBits b) rest

def readText : Nat → Nat → List Char → List UInt8 → Except Utf8Fault (List Char)
  | 0, _, done, _ => .ok done.reverse
  | _ + 1, _, done, [] => .ok done.reverse
  | n + 1, place, done, b :: rest =>
    match firstChar b rest with
    | .error (width, reason) => .error ⟨place, width, reason⟩
    | .ok (c, more) => readText n (place + sequenceWidth b) (c :: done) more

def textOfBytes (bs : List UInt8) : Except Utf8Fault String :=
  (readText bs.length 0 [] bs).map String.ofList

end Xdr.Wire
