import Mathlib
import Xdr.Number.Binary

/-!
# Widening and narrowing

Every number of four bytes is one of eight bytes, and narrowing gives it back: widening loses nothing
but the payloads of what is no number.
-/

namespace Xdr.Number

variable {bits m k : Nat} {negative : Bool} {e q : Int}

section

variable (fmt : Format)

lemma signBit_eq (negative : Bool) :
    fmt.signBit negative = 2 ^ fmt.fraction * (2 ^ fmt.exponent * negative.toNat) := by
  cases negative <;> simp [Format.signBit, Nat.pow_add]

lemma datum_pattern (negative : Bool) {e f : Nat} (he : e < 2 ^ fmt.exponent)
    (hf : f < 2 ^ fmt.fraction) :
    fmt.datum (fmt.signBit negative + (e * 2 ^ fmt.fraction + f)) =
      if e = 2 ^ fmt.exponent - 1 then if f = 0 then .infinite negative else .nan negative f
      else if e = 0 then .finite negative f fmt.lowest
      else .finite negative (2 ^ fmt.fraction + f) (fmt.lowest + e - 1) := by
  have hbits : fmt.signBit negative + (e * 2 ^ fmt.fraction + f) =
      f + 2 ^ fmt.fraction * (e + 2 ^ fmt.exponent * negative.toNat) := by
    rw [signBit_eq]
    ring
  have hfraction : (f + 2 ^ fmt.fraction * (e + 2 ^ fmt.exponent * negative.toNat)) %
      2 ^ fmt.fraction = f := by
    rw [Nat.add_mul_mod_self_left, Nat.mod_eq_of_lt hf]
  have hrest : (f + 2 ^ fmt.fraction * (e + 2 ^ fmt.exponent * negative.toNat)) /
      2 ^ fmt.fraction = e + 2 ^ fmt.exponent * negative.toNat := by
    rw [Nat.add_mul_div_left _ _ (by positivity), Nat.div_eq_of_lt hf, Nat.zero_add]
  have hsign : (f + 2 ^ fmt.fraction * (e + 2 ^ fmt.exponent * negative.toNat)) /
      2 ^ (fmt.fraction + fmt.exponent) = negative.toNat := by
    rw [Nat.pow_add, ← Nat.div_div_eq_div_mul, hrest, Nat.add_mul_div_left _ _ (by positivity),
      Nat.div_eq_of_lt he, Nat.zero_add]
  have hnegative : decide (negative.toNat % 2 = 1) = negative := by
    cases negative <;> rfl
  simp only [Format.datum, hbits, hfraction, hrest, hsign, Nat.add_mul_mod_self_left,
    Nat.mod_eq_of_lt he, hnegative]

lemma exists_pattern (h : bits < 2 ^ (fmt.fraction + fmt.exponent + 1)) :
    ∃ negative e f, e < 2 ^ fmt.exponent ∧ f < 2 ^ fmt.fraction ∧
      bits = fmt.signBit negative + (e * 2 ^ fmt.fraction + f) := by
  have hfraction : 0 < 2 ^ fmt.fraction := by positivity
  have hexponent : 0 < 2 ^ fmt.exponent := by positivity
  have hs : bits / 2 ^ fmt.fraction / 2 ^ fmt.exponent < 2 := by
    rw [Nat.div_div_eq_div_mul, ← Nat.pow_add]
    exact Nat.div_lt_of_lt_mul (by rwa [← Nat.pow_succ])
  refine ⟨decide (bits / 2 ^ fmt.fraction / 2 ^ fmt.exponent = 1),
    bits / 2 ^ fmt.fraction % 2 ^ fmt.exponent, bits % 2 ^ fmt.fraction,
    Nat.mod_lt _ hexponent, Nat.mod_lt _ hfraction, ?_⟩
  have htoNat : (decide (bits / 2 ^ fmt.fraction / 2 ^ fmt.exponent = 1)).toNat =
      bits / 2 ^ fmt.fraction / 2 ^ fmt.exponent := by
    generalize bits / 2 ^ fmt.fraction / 2 ^ fmt.exponent = s at *
    interval_cases s <;> rfl
  rw [signBit_eq, htoNat]
  have h₁ := Nat.div_add_mod bits (2 ^ fmt.fraction)
  have h₂ := Nat.div_add_mod (bits / 2 ^ fmt.fraction) (2 ^ fmt.exponent)
  calc bits = 2 ^ fmt.fraction * (bits / 2 ^ fmt.fraction) + bits % 2 ^ fmt.fraction := h₁.symm
    _ = 2 ^ fmt.fraction * (2 ^ fmt.exponent * (bits / 2 ^ fmt.fraction / 2 ^ fmt.exponent) +
          bits / 2 ^ fmt.fraction % 2 ^ fmt.exponent) + bits % 2 ^ fmt.fraction := by rw [h₂]
    _ = _ := by ring

end

lemma nearest?_exact (fmt : Format) (negative : Bool) (hm : m ≠ 0)
    (hq : max (e + m.log2 - fmt.fraction) fmt.lowest = q) (hle : q ≤ e)
    (hbits : (q - fmt.lowest).toNat * 2 ^ fmt.fraction + m * 2 ^ (e - q).toNat < fmt.infinity) :
    fmt.nearest? negative m e = some (fmt.signBit negative +
      ((q - fmt.lowest).toNat * 2 ^ fmt.fraction + m * 2 ^ (e - q).toNat)) := by
  simp only [Format.nearest?, hm, ite_false, hq, hle, ite_true, hbits]

lemma roundShift_mul (m k : Nat) : roundShift (m * 2 ^ k) k = m := by
  have hpos : 0 < 2 ^ k := by positivity
  simp only [roundShift, Nat.mul_div_cancel m hpos, Nat.mul_mod_left, Nat.mul_zero]
  simp [hpos.ne]

lemma nearest?_shift (fmt : Format) (negative : Bool) (hm : m ≠ 0)
    (hq : max (e + (m * 2 ^ k).log2 - fmt.fraction) fmt.lowest = q) (hk : 0 < k) (hsum : q - e = k)
    (hbits : (q - fmt.lowest).toNat * 2 ^ fmt.fraction + m < fmt.infinity) :
    fmt.nearest? negative (m * 2 ^ k) e = some (fmt.signBit negative +
      ((q - fmt.lowest).toNat * 2 ^ fmt.fraction + m)) := by
  have hne : m * 2 ^ k ≠ 0 := by positivity
  have hnot : ¬ q ≤ e := by omega
  have hshift : (q - e).toNat = k := by omega
  simp only [Format.nearest?, hne, ite_false, hq, hnot, hshift, roundShift_mul, hbits, ite_true]

lemma log2_mul_two_pow (hm : m ≠ 0) (k : Nat) : (m * 2 ^ k).log2 = m.log2 + k := by
  have hne : m * 2 ^ k ≠ 0 := by positivity
  rw [Nat.log2_eq_iff hne]
  have hlow : 2 ^ m.log2 ≤ m := Nat.log2_self_le hm
  have hhigh : m < 2 ^ (m.log2 + 1) := Nat.lt_log2_self
  constructor
  · rw [Nat.pow_add]
    exact Nat.mul_le_mul_right _ hlow
  · rw [show m.log2 + k + 1 = (m.log2 + 1) + k by omega, Nat.pow_add]
    exact Nat.mul_lt_mul_of_pos_right hhigh (by positivity)

lemma mantissa_bounds (hm : m ≠ 0) (hlog : m.log2 ≤ k) :
    2 ^ k ≤ m * 2 ^ (k - m.log2) ∧ m * 2 ^ (k - m.log2) < 2 ^ k + 2 ^ k := by
  have hlow : 2 ^ m.log2 ≤ m := Nat.log2_self_le hm
  have hhigh : m < 2 ^ (m.log2 + 1) := Nat.lt_log2_self
  have hk : 2 ^ k = 2 ^ m.log2 * 2 ^ (k - m.log2) := by
    rw [← Nat.pow_add]
    congr 1
    omega
  constructor
  · rw [hk]
    exact Nat.mul_le_mul_right _ hlow
  · rw [← Nat.two_mul, hk, ← Nat.mul_assoc, ← Nat.pow_succ']
    exact Nat.mul_lt_mul_of_pos_right hhigh (by positivity)

lemma lowest_binary64 : binary64.lowest = -1074 := by decide

lemma lowest_binary32 : binary32.lowest = -149 := by decide

lemma narrow?_nearest (negative : Bool) (hm : m ≠ 0) (hlog : m.log2 ≤ 23) (hlow : -149 ≤ e)
    (hhigh : e + m.log2 ≤ 127) :
    ∃ bits, binary64.nearest? negative m e = some bits ∧
      narrow? bits = binary32.nearest? negative (m * 2 ^ (52 - m.log2)) (e - (52 - m.log2 : Nat)) := by
  have hfraction : binary64.fraction = 52 := rfl
  have hexponent : binary64.exponent = 11 := rfl
  obtain ⟨hmin, hmax⟩ := mantissa_bounds hm (k := 52) (by omega)
  generalize hq : e - (52 - m.log2 : Nat) = q
  have hplace : max (e + m.log2 - binary64.fraction) binary64.lowest = q := by
    rw [lowest_binary64, hfraction]
    omega
  have hshift : (e - q).toNat = 52 - m.log2 := by omega
  obtain ⟨k, hk⟩ : ∃ k : Nat, (q - binary64.lowest).toNat = k := ⟨_, rfl⟩
  have hkq : (k : Int) = q + 1074 := by
    rw [← hk, lowest_binary64]
    omega
  -- the leading bit of the mantissa carries into the exponent
  have hparts : k * 2 ^ 52 + m * 2 ^ (52 - m.log2) =
      (k + 1) * 2 ^ 52 + (m * 2 ^ (52 - m.log2) - 2 ^ 52) := by
    rw [Nat.add_mul]
    omega
  have hbits : k * 2 ^ 52 + m * 2 ^ (52 - m.log2) < binary64.infinity := by
    have hinfinity : binary64.infinity = 2047 * 2 ^ 52 := by decide
    have hcount : (k + 2) * 2 ^ 52 ≤ 2047 * 2 ^ 52 := Nat.mul_le_mul_right _ (by omega)
    rw [hinfinity]
    rw [Nat.add_mul] at hcount
    omega
  have hnearest := nearest?_exact binary64 negative hm hplace (by omega)
    (by rw [hk, hshift, hfraction]; exact hbits)
  rw [hk, hshift, hfraction, hparts] at hnearest
  refine ⟨_, hnearest, ?_⟩
  have hdatum := datum_pattern binary64 negative (e := k + 1) (f := m * 2 ^ (52 - m.log2) - 2 ^ 52)
    (by rw [hexponent]; omega) (by rw [hfraction]; omega)
  rw [hfraction] at hdatum
  have hmantissa : 2 ^ 52 + (m * 2 ^ (52 - m.log2) - 2 ^ 52) = m * 2 ^ (52 - m.log2) := by omega
  have hvalue : binary64.lowest + ((k + 1 : Nat) : Int) - 1 = q := by
    rw [lowest_binary64]
    omega
  rw [if_neg (by rw [hexponent]; omega), if_neg (by omega), hmantissa, hvalue] at hdatum
  rw [narrow?, hdatum]

lemma nearest?_zero (fmt : Format) (negative : Bool) (e : Int) :
    fmt.nearest? negative 0 e = some (fmt.signBit negative) := by
  simp [Format.nearest?]

lemma narrow?_signBit (negative : Bool) :
    narrow? (binary64.signBit negative) = some (binary32.signBit negative) := by
  cases negative <;> decide

lemma narrow?_infinity (negative : Bool) :
    narrow? (binary64.signBit negative + binary64.infinity) =
      some (binary32.signBit negative + binary32.infinity) := by
  cases negative <;> decide

lemma narrow?_widen_finite (hdatum : binary32.datum bits = .finite negative m e) (hm : m ≠ 0)
    (hlog : m.log2 ≤ 23) (hlow : -149 ≤ e) (hhigh : e ≤ 104) (hnormal : m.log2 = 23 ∨ e = -149) :
    narrow? (widen bits) = some (binary32.signBit negative + ((e + 149).toNat * 2 ^ 23 + m)) := by
  have hfraction : binary32.fraction = 23 := rfl
  obtain ⟨wide, hwide, hnarrow⟩ := narrow?_nearest negative hm hlog hlow (by omega)
  have hwiden : widen bits = wide := by
    rw [widen, hdatum]
    simp only
    rw [hwide, Option.getD_some]
  have hplace : max (e - (52 - m.log2 : Nat) + (m * 2 ^ (52 - m.log2)).log2 - binary32.fraction)
      binary32.lowest = e := by
    rw [log2_mul_two_pow hm, lowest_binary32, hfraction]
    omega
  have hexponent : (e - binary32.lowest).toNat = (e + 149).toNat := by
    rw [lowest_binary32]
    omega
  have hsmall : m < 2 ^ 24 :=
    lt_of_lt_of_le Nat.lt_log2_self (Nat.pow_le_pow_right (by omega) (by omega))
  have hbits : (e + 149).toNat * 2 ^ 23 + m < binary32.infinity := by
    have hinfinity : binary32.infinity = 255 * 2 ^ 23 := by decide
    rw [hinfinity]
    omega
  have hnearest := nearest?_shift binary32 negative hm hplace (by omega) (by omega)
    (by rw [hexponent, hfraction]; exact hbits)
  rw [hwiden, hnarrow, hnearest, hexponent, hfraction]

lemma narrow?_widen (hbits : bits < 2 ^ 32)
    (hnumber : ∀ negative payload, binary32.datum bits ≠ .nan negative payload) :
    narrow? (widen bits) = some bits := by
  have hfraction : binary32.fraction = 23 := rfl
  have hexponent : 2 ^ binary32.exponent - 1 = 255 := rfl
  obtain ⟨negative, e, f, he, hf, rfl⟩ := exists_pattern binary32 hbits
  have hdatum := datum_pattern binary32 negative he hf
  rw [hexponent, lowest_binary32] at hdatum
  rw [hfraction] at hf hdatum hnumber ⊢
  have htop : e ≤ 255 := by omega
  by_cases hinfinite : e = 255
  · by_cases hzero : f = 0
    · rw [if_pos hinfinite, if_pos hzero] at hdatum
      have hinfinity : e * 2 ^ 23 + f = binary32.infinity := by
        rw [hinfinite, hzero]
        decide
      rw [widen, hdatum]
      simp only
      rw [narrow?_infinity, hinfinity]
    · rw [if_pos hinfinite, if_neg hzero] at hdatum
      exact absurd hdatum (hnumber negative f)
  rw [if_neg hinfinite] at hdatum
  by_cases hsubnormal : e = 0
  · rw [if_pos hsubnormal] at hdatum
    by_cases hzero : f = 0
    · rw [hzero] at hdatum
      rw [hsubnormal, hzero, widen]
      rw [hsubnormal] at hdatum
      rw [hdatum]
      simp only
      rw [nearest?_zero, Option.getD_some, narrow?_signBit]
      simp
    · have hlog : f.log2 < 23 := (Nat.log2_lt hzero).2 hf
      rw [narrow?_widen_finite hdatum hzero (by omega) (by omega) (by omega) (.inr rfl), hsubnormal]
      simp
  · rw [if_neg hsubnormal] at hdatum
    have hlog : (2 ^ 23 + f).log2 = 23 := (Nat.log2_eq_iff (by omega)).2 ⟨by omega, by omega⟩
    have hbits' : (-149 + (e : Int) - 1 + 149).toNat * 2 ^ 23 + (2 ^ 23 + f) = e * 2 ^ 23 + f := by
      omega
    rw [narrow?_widen_finite hdatum (by omega) (by omega) (by omega) (by omega) (.inl hlog), hbits']

def IsNan (bits : Nat) : Prop := ∃ negative payload, binary64.datum bits = .nan negative payload

lemma nearest?_lt {fmt : Format} (h : fmt.nearest? negative m e = some bits)
    (hpos : 0 < fmt.infinity) : bits < fmt.signBit negative + fmt.infinity := by
  unfold Format.nearest? at h
  split at h
  · cases h
    omega
  · dsimp only at h
    split_ifs at h with hexact hfinite hfinite
    · cases h
      omega
    · cases h
      omega

lemma signBit_le (negative : Bool) : binary64.signBit negative ≤ 2 ^ 63 := by
  cases negative <;> decide

lemma infinity_binary64 : binary64.infinity = 2047 * 2 ^ 52 := by decide

lemma widen_lt (bits : Nat) : widen bits < 2 ^ 64 := by
  unfold widen
  split
  · rename_i negative m e _
    have hsign := signBit_le negative
    cases hnearest : binary64.nearest? negative m e with
    | none => simp
    | some wide =>
      have hlt := nearest?_lt hnearest (by decide)
      rw [infinity_binary64] at hlt
      rw [Option.getD_some]
      omega
  · rename_i negative _
    have hsign := signBit_le negative
    rw [infinity_binary64]
    omega
  · rename_i negative payload _
    have hsign := signBit_le negative
    rw [infinity_binary64]
    omega

lemma isNan_widen {payload : Nat} (h : binary32.datum bits = .nan negative payload) :
    IsNan (widen bits) := by
  have hexponent : binary64.exponent = 11 := rfl
  have hfraction : binary64.fraction = 52 := rfl
  have hdatum := datum_pattern binary64 negative (e := 2047)
    (f := 2 ^ 51 + payload % 2 ^ 22 * 2 ^ 29) (by rw [hexponent]; omega) (by rw [hfraction]; omega)
  rw [hexponent, hfraction, if_pos (by norm_num), if_neg (by omega)] at hdatum
  refine ⟨negative, 2 ^ 51 + payload % 2 ^ 22 * 2 ^ 29, ?_⟩
  rw [widen, h]
  simp only
  rw [infinity_binary64, Nat.add_assoc, Nat.add_assoc]
  exact hdatum

lemma narrow?_widen_of_not_isNan (hbits : bits < 2 ^ 32) (h : ¬ IsNan (widen bits)) :
    narrow? (widen bits) = some bits :=
  narrow?_widen hbits fun _ _ hdatum => h (isNan_widen hdatum)

lemma narrow?_lt {n : Nat} (h : narrow? bits = some n) : n < 2 ^ 32 := by
  have hsign : ∀ negative, binary32.signBit negative ≤ 2 ^ 31 := by decide
  have hinfinity : binary32.infinity = 255 * 2 ^ 23 := by decide
  unfold narrow? at h
  split at h
  · rename_i negative m e _
    have hlt := nearest?_lt h (by decide)
    have hle := hsign negative
    omega
  · rename_i negative _
    have hle := hsign negative
    cases h
    omega
  · rename_i negative payload _
    have hle := hsign negative
    cases h
    omega

lemma equalsDouble_self (h : ¬ IsNan bits) : equalsDouble bits bits = true := by
  unfold equalsDouble
  cases hdatum : binary64.datum bits with
  | nan negative payload => exact absurd ⟨negative, payload, hdatum⟩ h
  | infinite negative => simp
  | finite negative m e => cases m <;> simp

end Xdr.Number
