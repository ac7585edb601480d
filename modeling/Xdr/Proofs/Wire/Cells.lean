import Mathlib
import Xdr.Wire.Form

/-!
# Words, cells and runs

A word of a given width stands for one number, unsigned or signed, and each number of the range has
one word.
-/

namespace Xdr.Wire

open List

variable {n width : Nat}

lemma natOfBytes_concat (bs : List UInt8) (b : UInt8) :
    natOfBytes (bs ++ [b]) = natOfBytes bs * 256 + b.toNat := by
  rw [natOfBytes_append]
  rfl

lemma natOfBytes_lt (bs : List UInt8) : natOfBytes bs < 256 ^ bs.length := by
  induction bs using List.reverseRecOn with
  | nil => simp [natOfBytes]
  | append_singleton bs b ih =>
    have hb := b.toNat_lt
    rw [natOfBytes_concat, length_append, length_singleton, Nat.pow_succ]
    omega

lemma bigEndian_natOfBytes {bs : List UInt8} (h : bs.length = width) :
    bigEndian width (natOfBytes bs) = bs := by
  subst h
  induction bs using List.reverseRecOn with
  | nil => rfl
  | append_singleton bs b ih =>
    have hb : b.toNat < 256 := b.toNat_lt
    rw [natOfBytes_concat, length_append, length_singleton, bigEndian,
      show (natOfBytes bs * 256 + b.toNat) / 256 = natOfBytes bs by omega, ih]
    congr 2
    apply UInt8.toNat_inj.1
    rw [UInt8.toNat_ofNat']
    omega

lemma natOfBytes_bigEndian_of_lt (h : n < 256 ^ width) : natOfBytes (bigEndian width n) = n := by
  rw [natOfBytes_bigEndian, Nat.mod_eq_of_lt h]

lemma signedBytes_length (width : Nat) (n : Int) : (signedBytes width n).length = width :=
  bigEndian_length _ _

lemma signedBytes_natCast (h : n < 256 ^ width) : signedBytes width n = bigEndian width n := by
  have hmod : ((n : Int) % ((256 ^ width : Nat) : Int)).toNat = n := by
    rw [Int.emod_eq_of_lt (by omega) (by exact_mod_cast h), Int.toNat_natCast]
  rw [signedBytes, hmod]

def FitsSigned (width : Nat) (n : Int) : Prop :=
  -((256 ^ width : Nat) : Int) ≤ 2 * n ∧ 2 * n < ((256 ^ width : Nat) : Int)

lemma signed_fits (h : n < 256 ^ width) : FitsSigned width (signed width n) := by
  unfold signed FitsSigned
  generalize 256 ^ width = base at *
  split <;> omega

lemma signed_natOfBytes_signedBytes {n : Int} (h : FitsSigned width n) :
    signed width (natOfBytes (signedBytes width n)) = n := by
  obtain ⟨hlow, hhigh⟩ := h
  rw [signedBytes]
  generalize hbase : 256 ^ width = base at *
  have hpos : 0 < base := by
    rw [← hbase]
    positivity
  have hmod : (n % (base : Int)).toNat < base := by
    have := Int.emod_lt_of_pos n (by exact_mod_cast hpos : (0 : Int) < base)
    omega
  rw [natOfBytes_bigEndian_of_lt (hbase ▸ hmod), signed, hbase]
  rcases lt_or_ge n 0 with hneg | hnonneg
  · have hval : n % (base : Int) = n + base := by
      rw [← Int.add_emod_right, Int.emod_eq_of_lt (by omega) (by omega)]
    rw [hval]
    split <;> omega
  · rw [Int.emod_eq_of_lt hnonneg (by omega)]
    split <;> omega

lemma signedBytes_signed (h : n < 256 ^ width) :
    signedBytes width (signed width n) = bigEndian width n := by
  rw [signedBytes, signed]
  generalize 256 ^ width = base at *
  have hmod : ((if 2 * n < base then (n : Int) else n - (base : Int)) % (base : Int)).toNat = n := by
    split
    · rw [Int.emod_eq_of_lt (by omega) (by exact_mod_cast h), Int.toNat_natCast]
    · rw [Int.sub_emod_right, Int.emod_eq_of_lt (by omega) (by exact_mod_cast h),
        Int.toNat_natCast]
  rw [hmod]

end Xdr.Wire

/-! ## Cells -/

namespace Xdr

open List

variable {strict : Bool} {bs : List UInt8} {a b cells : Cells}

inductive Cell
  | byte (b : UInt8)
  | pad
deriving DecidableEq

namespace Cell

def zeroed : Cell → UInt8
  | byte b => b
  | pad => 0

/-- A byte may stand for a cell; a strict reader wants padding to be zero. -/
def Admits (strict : Bool) : Cell → UInt8 → Prop
  | byte b, x => x = b
  | pad, x => strict = true → x = 0

lemma Admits.eq_zeroed {c : Cell} {b : UInt8} (h : c.Admits true b) : b = c.zeroed := by
  cases c with
  | byte x => exact h
  | pad => exact h rfl

end Cell

abbrev Cells := List Cell

namespace Cells

def ofBytes (bs : List UInt8) : Cells := bs.map .byte

/-- Padding behind `n` bytes. -/
def pads (n : Nat) : Cells := List.replicate (padding n) .pad

def padded (bs : List UInt8) : Cells := ofBytes bs ++ pads bs.length

def zeroed (cells : Cells) : List UInt8 := cells.map Cell.zeroed

def Fits (strict : Bool) (cells : Cells) (bs : List UInt8) : Prop :=
  List.Forall₂ (Cell.Admits strict) cells bs

@[simp] lemma zeroed_nil : zeroed [] = [] := rfl

@[simp] lemma zeroed_append (a b : Cells) : zeroed (a ++ b) = zeroed a ++ zeroed b :=
  map_append

@[simp] lemma zeroed_ofBytes (bs : List UInt8) : zeroed (ofBytes bs) = bs := by
  simp [zeroed, ofBytes, Function.comp_def, Cell.zeroed]

@[simp] lemma zeroed_pads (n : Nat) : zeroed (pads n) = List.replicate (padding n) 0 := by
  simp [zeroed, pads, Cell.zeroed]

@[simp] lemma length_zeroed (cells : Cells) : (zeroed cells).length = cells.length :=
  length_map ..

@[simp] lemma length_ofBytes (bs : List UInt8) : (ofBytes bs).length = bs.length :=
  length_map ..

@[simp] lemma length_pads (n : Nat) : (pads n).length = padding n := length_replicate

lemma length_padded (bs : List UInt8) : (padded bs).length = Xdr.padded bs.length := by
  rw [padded, length_append, length_ofBytes, length_pads, padded_eq]

lemma dvd_padded (bs : List UInt8) : 4 ∣ (padded bs).length := by
  rw [length_padded]
  exact Nat.dvd_of_mod_eq_zero (padded_mod _)

lemma fits_zeroed (strict : Bool) (cells : Cells) : Fits strict cells (zeroed cells) := by
  induction cells with
  | nil => exact .nil
  | cons c rest ih =>
    refine .cons ?_ ih
    cases c with
    | byte b => rfl
    | pad => exact fun _ => rfl

lemma Fits.length_eq (h : Fits strict cells bs) : bs.length = cells.length :=
  (List.Forall₂.length_eq h).symm

lemma Fits.append {xs ys : List UInt8} (ha : Fits strict a xs) (hb : Fits strict b ys) :
    Fits strict (a ++ b) (xs ++ ys) :=
  rel_append ha hb

lemma fits_append_left (h : Fits strict (a ++ b) bs) :
    ∃ xs ys, bs = xs ++ ys ∧ Fits strict a xs ∧ Fits strict b ys := by
  induction a generalizing bs with
  | nil => exact ⟨[], bs, rfl, .nil, h⟩
  | cons c rest ih =>
    cases h with
    | cons hc hrest =>
      obtain ⟨xs, ys, rfl, hxs, hys⟩ := ih hrest
      exact ⟨_ :: xs, ys, rfl, .cons hc hxs, hys⟩

lemma fits_ofBytes_iff {xs : List UInt8} : Fits strict (ofBytes xs) bs ↔ bs = xs := by
  constructor
  · intro h
    induction xs generalizing bs with
    | nil =>
      cases h
      rfl
    | cons x rest ih =>
      cases h with
      | cons hx hrest =>
        have hrest' := ih hrest
        rw [hx, hrest']
  · rintro rfl
    simpa using fits_zeroed strict (ofBytes bs)

lemma fits_pads_iff {n : Nat} :
    Fits strict (pads n) bs ↔ bs.length = padding n ∧ (strict = true → ∀ b ∈ bs, b = 0) := by
  unfold pads Fits
  generalize padding n = k
  induction k generalizing bs with
  | zero =>
    constructor
    · intro h
      cases h
      simp
    · rintro ⟨hlength, -⟩
      rw [length_eq_zero_iff] at hlength
      rw [hlength]
      exact .nil
  | succ k ih =>
    rw [replicate_succ]
    constructor
    · intro h
      cases h with
      | cons hb hrest =>
        obtain ⟨hlength, hzero⟩ := ih.1 hrest
        refine ⟨by simp [hlength], fun hstrict b hmem => ?_⟩
        rcases mem_cons.1 hmem with rfl | hmem
        · exact hb hstrict
        · exact hzero hstrict b hmem
    · rintro ⟨hlength, hzero⟩
      cases bs with
      | nil => simp at hlength
      | cons b rest =>
        refine .cons (fun hstrict => hzero hstrict b (by simp)) (ih.2 ⟨by simpa using hlength, ?_⟩)
        exact fun hstrict x hx => hzero hstrict x (mem_cons_of_mem b hx)

lemma Fits.eq_zeroed (h : Fits true cells bs) : bs = zeroed cells := by
  induction h with
  | nil => rfl
  | cons hb _ ih =>
    rw [ih, hb.eq_zeroed]
    rfl

end Cells

/-! ## Runs of readers and writers -/

variable {P Q : Cells → Prop} {c d : Cells} {x y : Write}

section

variable {ε σ α β : Type}

lemma run_bind_of_ok {x : ExceptT ε (StateM σ) α} {f : α → ExceptT ε (StateM σ) β} {s t : σ}
    {a : α} (h : x s = (.ok a, t)) : (x >>= f) s = f a t := by
  simp only [bind, ExceptT.bind, ExceptT.mk, StateT.bind, h, ExceptT.bindCont]

lemma run_bind_of_error {x : ExceptT ε (StateM σ) α} {f : α → ExceptT ε (StateM σ) β} {s t : σ}
    {e : ε} (h : x s = (.error e, t)) : (x >>= f) s = (.error e, t) := by
  simp only [bind, ExceptT.bind, ExceptT.mk, StateT.bind, h, ExceptT.bindCont]
  rfl

lemma run_bind_eq_ok {x : ExceptT ε (StateM σ) α} {f : α → ExceptT ε (StateM σ) β} {s t : σ}
    {b : β} : (x >>= f) s = (.ok b, t) ↔ ∃ a u, x s = (.ok a, u) ∧ f a u = (.ok b, t) := by
  constructor
  · intro h
    cases hx : x s with
    | mk r u =>
      cases r with
      | ok a => exact ⟨a, u, rfl, by rwa [run_bind_of_ok hx] at h⟩
      | error e =>
        simp only [bind, ExceptT.bind, ExceptT.mk, StateT.bind, hx, ExceptT.bindCont] at h
        cases h
  · rintro ⟨a, u, hx, hf⟩
    rw [run_bind_of_ok hx, hf]

end

def Reads {α : Type} (strict : Bool) (r : Read α) (cells : Cells) (a : α) : Prop :=
  ∀ bs, Cells.Fits strict cells bs → ∀ data tail (k : Nat),
    r ⟨data, bs ++ tail, k⟩ = (.ok a, ⟨data, tail, (k + bs.length : Nat)⟩)

def Takes {α : Type} (strict : Bool) (r : Read α) (P : Cells → α → Prop) : Prop :=
  ∀ data rest (k : Nat) a after, r ⟨data, rest, k⟩ = (.ok a, after) →
    ∃ cells bs tail, Cells.Fits strict cells bs ∧ rest = bs ++ tail ∧
      after = ⟨data, tail, (k + bs.length : Nat)⟩ ∧ P cells a

section

variable {α β : Type} {strict : Bool}

lemma Reads.pure (a : α) : Reads strict (Pure.pure a) [] a := by
  intro bs hbs data tail k
  cases hbs
  rfl

lemma Reads.bind {x : Read α} {f : α → Read β} {a : α} {b : β} (hx : Reads strict x c a)
    (hf : Reads strict (f a) d b) : Reads strict (x >>= f) (c ++ d) b := by
  intro bs hbs data tail k
  obtain ⟨xs, ys, rfl, hxs, hys⟩ := Cells.fits_append_left hbs
  rw [append_assoc, run_bind_of_ok (hx xs hxs data (ys ++ tail) k), hf ys hys data tail,
    length_append, Nat.add_assoc]

lemma Reads.bind_pure {x : Read α} {f : α → Read β} {a : α} {b : β} (hx : Reads strict x c a)
    (hf : f a = Pure.pure b) : Reads strict (x >>= f) c b := by
  rw [← append_nil c]
  exact hx.bind (hf ▸ Reads.pure b)

lemma Reads.offset {f : Int → Read β} {b : β} (hf : ∀ i, Reads strict (f i) c b) :
    Reads strict (Read.offset >>= f) c b := by
  intro bs hbs data tail k
  exact hf k bs hbs data tail k

lemma Takes.pure {P : Cells → α → Prop} {a : α} (h : P [] a) :
    Takes strict (Pure.pure a) P := by
  intro data rest k b after hrun
  cases hrun
  exact ⟨[], [], rest, .nil, rfl, rfl, h⟩

lemma Takes.throw {P : Cells → α → Prop} (f : Fault) : Takes strict (throw f) P := by
  intro data rest k b after hrun
  cases hrun

lemma Takes.mono {r : Read α} {P Q : Cells → α → Prop} (h : Takes strict r P)
    (hPQ : ∀ c a, P c a → Q c a) : Takes strict r Q := by
  intro data rest k a after hrun
  obtain ⟨cells, bs, tail, hfits, hrest, hafter, hP⟩ := h data rest k a after hrun
  exact ⟨cells, bs, tail, hfits, hrest, hafter, hPQ cells a hP⟩

lemma Takes.bind {x : Read α} {f : α → Read β} {P : Cells → α → Prop} {Q : Cells → β → Prop}
    (hx : Takes strict x P)
    (hf : ∀ c a, P c a → Takes strict (f a) fun d b => Q (c ++ d) b) : Takes strict (x >>= f) Q := by
  intro data rest k b after hrun
  obtain ⟨a, mid, hxrun, hfrun⟩ := run_bind_eq_ok.1 hrun
  obtain ⟨c, xs, tail, hxs, rfl, rfl, hP⟩ := hx data rest k a mid hxrun
  obtain ⟨d, ys, tail', hys, rfl, rfl, hQ⟩ := hf c a hP data tail _ b after hfrun
  exact ⟨c ++ d, xs ++ ys, tail', hxs.append hys, by rw [append_assoc],
    by rw [length_append, Nat.add_assoc], hQ⟩

lemma Takes.bind_last {x : Read α} {f : α → Read β} {P : Cells → α → Prop} {Q : Cells → β → Prop}
    (hx : Takes strict x P)
    (hf : ∀ c a, P c a → Takes strict (f a) fun d b => d = [] ∧ Q c b) : Takes strict (x >>= f) Q := by
  refine hx.bind fun c a hP => (hf c a hP).mono ?_
  rintro d b ⟨rfl, hQ⟩
  rwa [append_nil]

lemma Takes.offset {f : Int → Read β} {P : Cells → β → Prop} (hf : ∀ i, Takes strict (f i) P) :
    Takes strict (Read.offset >>= f) P := by
  intro data rest k b after hrun
  exact hf k data rest k b after hrun

end

def Writes (w : Write) (cells : Cells) : Prop :=
  ∀ out : Output, w out = (.ok (), out.appendList cells.zeroed)

def Puts (w : Write) (P : Cells → Prop) : Prop :=
  ∀ out after : Output, w out = (.ok (), after) →
    ∃ cells, after = out.appendList (Cells.zeroed cells) ∧ P cells

lemma appendList_appendList (out : Output) (xs ys : List UInt8) :
    (out.appendList xs).appendList ys = out.appendList (xs ++ ys) := by
  simp [Array.appendList]

lemma Writes.pure : Writes (Pure.pure ()) [] := fun _ => rfl

lemma Writes.put (bs : List UInt8) : Writes (Write.put bs) (Cells.ofBytes bs) := by
  intro out
  rw [Cells.zeroed_ofBytes]
  rfl

lemma Writes.bind (hx : Writes x c) (hy : Writes y d) : Writes (do x; y) (c ++ d) := by
  intro out
  rw [run_bind_of_ok (hx out), hy, appendList_appendList, Cells.zeroed_append]

lemma Puts.pure (h : P []) : Puts (Pure.pure ()) P := by
  intro out after hrun
  cases hrun
  exact ⟨[], rfl, h⟩

lemma Puts.throw (f : Fault) : Puts (throw f) P := by
  intro out after hrun
  cases hrun

lemma Puts.put {bs : List UInt8} (h : P (Cells.ofBytes bs)) : Puts (Write.put bs) P := by
  intro out after hrun
  cases hrun
  exact ⟨Cells.ofBytes bs, by rw [Cells.zeroed_ofBytes], h⟩

lemma Puts.mono {w : Write} (h : Puts w P) (hPQ : ∀ c, P c → Q c) : Puts w Q := by
  intro out after hrun
  obtain ⟨cells, hafter, hP⟩ := h out after hrun
  exact ⟨cells, hafter, hPQ cells hP⟩

lemma Puts.bind (hx : Puts x P) (hy : ∀ c, P c → Puts y fun d => Q (c ++ d)) :
    Puts (do x; y) Q := by
  intro out after hrun
  obtain ⟨⟨⟩, mid, hxrun, hyrun⟩ := run_bind_eq_ok.1 hrun
  obtain ⟨c, rfl, hP⟩ := hx out mid hxrun
  obtain ⟨d, rfl, hQ⟩ := hy c hP _ after hyrun
  exact ⟨c ++ d, by rw [appendList_appendList, Cells.zeroed_append], hQ⟩

end Xdr
