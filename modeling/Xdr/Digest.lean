import Xdr.Wire.Bytes

/-!
# Digests of bytes

The digest SHA-256: the bytes are padded to whole blocks of 64 bytes, and every block changes a
state of eight words.
-/

namespace Xdr.Digest

structure State where
  a : UInt32
  b : UInt32
  c : UInt32
  d : UInt32
  e : UInt32
  f : UInt32
  g : UInt32
  h : UInt32
deriving DecidableEq

def start : State :=
  ⟨0x6a09e667, 0xbb67ae85, 0x3c6ef372, 0xa54ff53a, 0x510e527f, 0x9b05688c, 0x1f83d9ab, 0x5be0cd19⟩

def roundConstants : List UInt32 :=
  [0x428a2f98, 0x71374491, 0xb5c0fbcf, 0xe9b5dba5, 0x3956c25b, 0x59f111f1, 0x923f82a4, 0xab1c5ed5,
   0xd807aa98, 0x12835b01, 0x243185be, 0x550c7dc3, 0x72be5d74, 0x80deb1fe, 0x9bdc06a7, 0xc19bf174,
   0xe49b69c1, 0xefbe4786, 0x0fc19dc6, 0x240ca1cc, 0x2de92c6f, 0x4a7484aa, 0x5cb0a9dc, 0x76f988da,
   0x983e5152, 0xa831c66d, 0xb00327c8, 0xbf597fc7, 0xc6e00bf3, 0xd5a79147, 0x06ca6351, 0x14292967,
   0x27b70a85, 0x2e1b2138, 0x4d2c6dfc, 0x53380d13, 0x650a7354, 0x766a0abb, 0x81c2c92e, 0x92722c85,
   0xa2bfe8a1, 0xa81a664b, 0xc24b8b70, 0xc76c51a3, 0xd192e819, 0xd6990624, 0xf40e3585, 0x106aa070,
   0x19a4c116, 0x1e376c08, 0x2748774c, 0x34b0bcb5, 0x391c0cb3, 0x4ed8aa4a, 0x5b9cca4f, 0x682e6ff3,
   0x748f82ee, 0x78a5636f, 0x84c87814, 0x8cc70208, 0x90befffa, 0xa4506ceb, 0xbef9a3f7, 0xc67178f2]

def turn (x n : UInt32) : UInt32 := (x >>> n) ||| (x <<< (32 - n))

def mixEarly (x : UInt32) : UInt32 := turn x 7 ^^^ turn x 18 ^^^ (x >>> 3)

def mixLate (x : UInt32) : UInt32 := turn x 17 ^^^ turn x 19 ^^^ (x >>> 10)

def extend : Nat → List UInt32 → List UInt32
  | 0, ws => ws
  | n + 1, ws =>
    let word (i : Nat) : UInt32 := ws[i]?.getD 0
    extend n ((mixLate (word 1) + word 6 + mixEarly (word 14) + word 15) :: ws)

def words : List UInt8 → List UInt32
  | a :: b :: c :: d :: rest =>
    (a.toUInt32 <<< 24 ||| b.toUInt32 <<< 16 ||| c.toUInt32 <<< 8 ||| d.toUInt32) :: words rest
  | _ => []

def schedule (block : List UInt8) : List UInt32 := (extend 48 (words block).reverse).reverse

def round (s : State) (k w : UInt32) : State :=
  let choice := (s.e &&& s.f) ^^^ ((s.e ^^^ 0xffffffff) &&& s.g)
  let majority := (s.a &&& s.b) ^^^ (s.a &&& s.c) ^^^ (s.b &&& s.c)
  let t := s.h + (turn s.e 6 ^^^ turn s.e 11 ^^^ turn s.e 25) + choice + k + w
  let u := (turn s.a 2 ^^^ turn s.a 13 ^^^ turn s.a 22) + majority
  ⟨t + u, s.a, s.b, s.c, s.d + t, s.e, s.f, s.g⟩

def compress (s : State) (block : List UInt8) : State :=
  let r := (roundConstants.zip (schedule block)).foldl (fun r x => round r x.1 x.2) s
  ⟨s.a + r.a, s.b + r.b, s.c + r.c, s.d + r.d, s.e + r.e, s.f + r.f, s.g + r.g, s.h + r.h⟩

def padded (data : List UInt8) : List UInt8 :=
  let zeros := (119 - data.length % 64) % 64
  data ++ 0x80 :: List.replicate zeros 0 ++ Wire.bigEndian 8 (8 * data.length)

def blocks : Nat → State → List UInt8 → State
  | 0, s, _ => s
  | n + 1, s, data => blocks n (compress s (data.take 64)) (data.drop 64)

def wordBytes (w : UInt32) : List UInt8 := Wire.bigEndian 4 w.toNat

def sha256 (data : List UInt8) : List UInt8 :=
  let bytes := padded data
  let s := blocks (bytes.length / 64) start bytes
  [s.a, s.b, s.c, s.d, s.e, s.f, s.g, s.h].flatMap wordBytes

end Xdr.Digest
