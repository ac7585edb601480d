import Xdr.Number.Binary

/-!
# Words of bytes

Integers as bytes, most significant byte first, and back.
-/

namespace Xdr.Wire

open scoped Power

def bigEndian : Nat → Nat → List UInt8
  | 0, _ => []
  | width + 1, n => bigEndian width (n / 256) ++ [UInt8.ofNat n]

def natOfBytes (bs : List UInt8) : Nat := bs.foldl (fun n b => n * 256 + b.toNat) 0

def signedBytes (width : Nat) (n : Int) : List UInt8 :=
  bigEndian width (n % (256 ^ width : Nat)).toNat

def signed (width n : Nat) : Int := if 2 * n < 256 ^ width then n else n - (256 ^ width : Nat)

theorem bigEndian_length (width n : Nat) : (bigEndian width n).length = width := by
  induction width generalizing n with
  | zero => rfl
  | succ w ih => simp only [bigEndian, List.length_append, ih, List.length_singleton]

theorem natOfBytes_append (xs ys : List UInt8) :
    natOfBytes (xs ++ ys) = ys.foldl (fun n b => n * 256 + b.toNat) (natOfBytes xs) := by
  simp only [natOfBytes, List.foldl_append]

theorem natOfBytes_bigEndian (width n : Nat) :
    natOfBytes (bigEndian width n) = n % 256 ^ width := by
  induction width generalizing n with
  | zero => simp [bigEndian, natOfBytes, Nat.mod_one]
  | succ w ih =>
    have h : (UInt8.ofNat n).toNat = n % 256 := by simp
    simp only [bigEndian, natOfBytes_append, List.foldl_cons, List.foldl_nil, ih, h]
    rw [Nat.pow_succ', Nat.mod_mul]
    omega

end Xdr.Wire
