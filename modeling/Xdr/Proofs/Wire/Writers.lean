import Xdr.Proofs.Layout

/-!
# Writers of the wire format

What each writer puts out, in both directions: it writes the cells of every value that has a layout,
and a value of the right type that it writes has one.
-/

namespace Xdr

open Wire

variable {P : Cells → Prop} {R : UInt64 → Nat → Prop} {bound : Option Int} {b target : Builtin}
  {cells : Cells} {width : Nat} {v : Value} {high low n : Int} {bs : List UInt8} {storage : Storage}

/-- Values behave as plain ones do: nothing lacks what numbers have, truth values are compared with
numbers and counted as true by their own truth, and a variant of an enum stands for itself. -/
structure Conduct.Regular (c : Conduct) : Prop where
  lacks : ∀ v name, c.lacks v name = false
  equals : ∀ n b, c.equals n (.bool b) = .ok (decide (((if b then 1 else 0) : Int) = n))
  truth : ∀ b, c.truth (.bool b) = .ok b
  variant : ∀ (e : EnumClass) variant n,
    c.variant e (.member e.name variant n) = .ok (.member e.name variant n)

lemma number_int (hrange : target.range? = some (low, high)) (hlow : low ≤ n) (hhigh : n ≤ high) :
    Write.number target width (.int n) = Write.put (signedBytes width n) := by
  simp [Write.number, Value.integer?, hrange, hlow, hhigh]

lemma puts_failWith (n : Int) (f : EncodeFault) : Puts (Write.failWith n f) P := by
  unfold Write.failWith
  split <;> exact Puts.throw _

lemma puts_number (hrange : target.range? = some (low, high))
    (h : low ≤ n → n ≤ high → P (.ofBytes (signedBytes width n))) :
    Puts (Write.number target width (.int n)) P := by
  by_cases hin : low ≤ n ∧ n ≤ high
  · rw [number_int hrange hin.1 hin.2]
    exact Puts.put (h hin.1 hin.2)
  · have hout : (decide (low ≤ n) && decide (n ≤ high)) = false := by simpa using hin
    simp only [Write.number, Value.integer?, hrange, hout, Bool.false_eq_true, if_false]
    exact puts_failWith _ _

lemma length_some (n : Nat) (b : Int) : Write.length (.int n) (some b) =
    if b < n then Write.failWith n (.tooLong (Value.int n).numberText b)
    else Write.number .uint 4 (.int n) := by
  split_ifs with hb <;>
    simp [Write.length, Value.exceeds?, Value.wholeNumber?, Value.integer?, hb]

lemma writes_length {n : Nat} (h : IsLength bound n) :
    Writes (Write.length (.int n) bound) (.word n) := by
  have hnumber : Write.number .uint 4 (.int n) = Write.put (bigEndian 4 n) := by
    rw [number_int rfl (by omega) (by have := h.1; omega), signedBytes_natCast h.1]
  cases bound with
  | none =>
    rw [Write.length, hnumber]
    exact Writes.put _
  | some b =>
    rw [length_some, if_neg (not_lt.2 (h.2 b rfl)), hnumber]
    exact Writes.put _

lemma puts_length (bound : Option Int) (n : Nat) :
    Puts (Write.length (.int n) bound) fun cells => IsLength bound n ∧ cells = .word n := by
  have hnumber : Puts (Write.number .uint 4 (.int n)) fun cells =>
      n < 256 ^ 4 ∧ cells = .word n := by
    refine puts_number rfl fun _ hhigh => ?_
    have hlt : n < 256 ^ 4 := by omega
    exact ⟨hlt, by rw [signedBytes_natCast hlt]; rfl⟩
  cases bound with
  | none => exact hnumber.mono fun cells h => ⟨⟨h.1, by simp⟩, h.2⟩
  | some b =>
    rw [length_some]
    split_ifs with hb
    · exact puts_failWith _ _
    · exact hnumber.mono fun cells h => ⟨⟨h.1, by simpa using hb⟩, h.2⟩

lemma writes_flag (b : Bool) : Writes (Write.flag b) (.word b.toNat) := by
  cases b <;> exact Writes.put _

lemma writes_variant (h : FitsSigned 4 n) : Writes (Write.variant n) (.number n) := by
  have hin : (decide (-(2 ^ 31) ≤ n) && decide (n < 2 ^ 31)) = true := by
    obtain ⟨hlow, hhigh⟩ := h
    simp only [Bool.and_eq_true, decide_eq_true_eq]
    omega
  rw [Write.variant, if_pos hin]
  exact Writes.put _

lemma puts_variant (n : Int) :
    Puts (Write.variant n) fun cells => FitsSigned 4 n ∧ cells = .number n := by
  unfold Write.variant
  split_ifs with hin
  · refine Puts.put ⟨?_, rfl⟩
    simp only [Bool.and_eq_true, decide_eq_true_eq] at hin
    constructor <;> omega
  · exact Puts.throw _

lemma puts_refuse (c : Conduct) (v : Value) (reason : String → EncodeFault) :
    Puts (Write.refuse c v reason) P := by
  unfold Write.refuse
  cases c.text v <;> exact Puts.throw _

section

variable {c : Conduct} (hc : c.Regular)

include hc

lemma integer_int (target : Builtin) (width : Nat) (n : Int) :
    Write.integer c target width (.int n) = Write.number target width (.int n) := by
  have hcomparable : Write.isIncomparable c target (.int n) = false := by
    unfold Write.isIncomparable
    cases target.range? <;> simp [Value.integer?, hc.lacks]
  simp [Write.integer, hcomparable]

lemma writes_bool (b : Bool) : Writes (Write.bool c (.bool b)) (.word b.toNat) := by
  intro out
  cases b <;> simp only [Write.bool, hc.equals, hc.truth] <;> exact Writes.put _ out

lemma writes_scalar (hR : ∀ bits n, R bits n → Number.narrow? bits.toNat = some n)
    (h : ScalarLaid R b v cells) : Writes (Write.scalar c b v) cells := by
  cases h with
  | int h =>
    obtain ⟨hlow, hhigh⟩ := h
    rw [Write.scalar, integer_int hc, number_int rfl (by omega) (by omega)]
    exact Writes.put _
  | @uint n h =>
    rw [Write.scalar, integer_int hc, number_int rfl (by omega) (by omega), signedBytes_natCast h]
    exact Writes.put _
  | hyper h =>
    obtain ⟨hlow, hhigh⟩ := h
    rw [Write.scalar, integer_int hc, number_int rfl (by omega) (by omega)]
    exact Writes.put _
  | @uhyper n h =>
    rw [Write.scalar, integer_int hc, number_int rfl (by omega) (by omega), signedBytes_natCast h]
    exact Writes.put _
  | float _ h =>
    simp only [Write.scalar, Write.float, hc.lacks, hR _ _ h]
    exact Writes.put _
  | double bits =>
    simp only [Write.scalar, Write.double, hc.lacks]
    exact Writes.put _
  | bool b => exact writes_bool hc b

abbrev Narrowed (F : UInt64 → Prop) (R : UInt64 → Nat → Prop) : Prop :=
  ∀ bits n, F bits → Number.narrow? bits.toNat = some n → n < 256 ^ 4 ∧ R bits n

lemma puts_scalar {F D : UInt64 → Prop} (hF : Narrowed F R)
    (h : ScalarTyped F D b v) : Puts (Write.scalar c b v) (ScalarLaid R b v) := by
  cases h with
  | int n =>
    rw [Write.scalar, integer_int hc]
    exact puts_number rfl fun hlow hhigh => .int ⟨by omega, by omega⟩
  | uint n =>
    rw [Write.scalar, integer_int hc]
    refine puts_number rfl fun hlow hhigh => ?_
    lift n to Nat using hlow
    rw [signedBytes_natCast (by omega)]
    exact .uint (by omega)
  | hyper n =>
    rw [Write.scalar, integer_int hc]
    exact puts_number rfl fun hlow hhigh => .hyper ⟨by omega, by omega⟩
  | uhyper n =>
    rw [Write.scalar, integer_int hc]
    refine puts_number rfl fun hlow hhigh => ?_
    lift n to Nat using hlow
    rw [signedBytes_natCast (by omega)]
    exact .uhyper (by omega)
  | @float bits h =>
    simp only [Write.scalar, Write.float, hc.lacks]
    cases hnarrow : Number.narrow? bits.toNat with
    | none => exact puts_refuse c _ _
    | some n =>
      obtain ⟨hn, hRn⟩ := hF bits n h hnarrow
      exact Puts.put (.float hn hRn)
  | @double bits _ =>
    simp only [Write.scalar, Write.double, hc.lacks]
    exact Puts.put (.double bits)
  | bool b =>
    intro out after hrun
    rw [Write.scalar, writes_bool hc b out] at hrun
    cases hrun
    exact ⟨.word b.toNat, rfl, .bool b⟩

end

lemma Storage.lies (h : storage.isPlain = true) : storage ≠ .sparse := by
  rintro rfl
  cases h

lemma writes_padded (h : storage ≠ .sparse) (bs : List UInt8) :
    Writes (Write.padded storage bs) (.padded bs) := by
  intro out
  rw [Write.padded, Write.copied, if_neg h, Cells.padded, Cells.zeroed_append, Cells.zeroed_ofBytes, Cells.zeroed_pads]
  rfl

lemma Writes.puts {w : Write} (h : Writes w cells) : Puts w (· = cells) := by
  intro out after hrun
  rw [h out] at hrun
  cases hrun
  exact ⟨cells, rfl, rfl⟩

lemma writes_varOpaque (hlies : storage ≠ .sparse)
    (h : IsLength bound bs.length) :
    Writes (Write.varOpaque bound (.bytes bs storage)) (.word bs.length ++ .padded bs) :=
  (writes_length h).bind (writes_padded hlies bs)

lemma puts_varOpaque (bound : Option Int) (bs : List UInt8)
    (hlies : storage ≠ .sparse) : Puts (Write.varOpaque bound (.bytes bs storage)) fun cells =>
      IsLength bound bs.length ∧ cells = .word bs.length ++ .padded bs := by
  refine (puts_length bound bs.length).bind ?_
  rintro cells ⟨hlength, rfl⟩
  refine (writes_padded hlies bs).puts.mono ?_
  rintro cells rfl
  exact ⟨hlength, rfl⟩

/-! ## Writers that decide -/

variable {target : Builtin} {width : Nat} {v : Value} {high low n : Int}

def Write.outcome (w : Write) (out : Output) : Except Fault Unit :=
  (w out : Except Fault Unit × Output).1

structure Decides (E : Fault → Prop) (w : Write) (P : Prop) : Prop where
  passes : P → ∀ out, w.outcome out = .ok ()
  refuses : ¬P → ∀ out, ∃ f, E f ∧ w.outcome out = .error f

namespace Decides

variable {E : Fault → Prop} {w x y : Write} {P Q : Prop}

lemma congr (h : Decides E w P) (hPQ : P ↔ Q) : Decides E w Q := by rwa [← hPQ]

lemma throw {f : Fault} (hf : E f) (hP : ¬P) : Decides E (throw f) P :=
  ⟨fun h => absurd h hP, fun _ _ => ⟨f, hf, rfl⟩⟩

lemma bind (hx : Decides E x P) (hy : P → Decides E y Q) : Decides E (do x; y) (P ∧ Q) := by
  have hrun : P → ∀ out, ∃ mid, Write.outcome (do x; y) out = y.outcome mid := by
    intro hP out
    refine ⟨(x out : Except Fault Unit × Output).2, ?_⟩
    have hok : x out = (.ok (), (x out : Except Fault Unit × Output).2) :=
      Prod.ext (hx.passes hP out) rfl
    rw [Write.outcome, run_bind_of_ok hok]
    rfl
  constructor
  · rintro ⟨hP, hQ⟩ out
    obtain ⟨mid, hmid⟩ := hrun hP out
    rw [hmid, (hy hP).passes hQ]
  · intro hnot out
    by_cases hP : P
    · obtain ⟨mid, hmid⟩ := hrun hP out
      obtain ⟨f, hf, hfail⟩ := (hy hP).refuses (fun hQ => hnot ⟨hP, hQ⟩) mid
      exact ⟨f, hf, hmid.trans hfail⟩
    · obtain ⟨f, hf, hfail⟩ := hx.refuses hP out
      refine ⟨f, hf, ?_⟩
      have herror : x out = (.error f, (x out : Except Fault Unit × Output).2) := Prod.ext hfail rfl
      rw [Write.outcome, run_bind_of_error herror]

lemma each {item : Value → Write} {holds : Value → Prop} {items : List Value}
    (h : ∀ v ∈ items, Decides E (item v) (holds v)) :
    Decides E (Write.each item items) (∀ v ∈ items, holds v) := by
  induction items with
  | nil => exact ⟨fun _ _ => rfl, fun hnot => absurd (by simp) hnot⟩
  | cons v rest ih =>
    refine (bind (h v (.head _)) fun _ => ?_).congr List.forall_mem_cons.symm
    exact ih fun u hu => h u (List.mem_cons_of_mem v hu)

end Decides

lemma Writes.decides {E : Fault → Prop} {w : Write} {cells : Cells} {P : Prop} (h : Writes w cells)
    (hP : P) : Decides E w P :=
  ⟨fun _ out => by rw [Write.outcome, h out], fun hnot => absurd hP hnot⟩

section

variable {E : Fault → Prop} (hE : ∀ f, E (.encode f))

include hE

lemma decides_fail {P : Prop} (f : EncodeFault) (hP : ¬P) : Decides E (Write.fail f) P :=
  .throw (hE f) hP

lemma decides_failWith (hn : Number.isWritable n = false → E .badValue) {P : Prop}
    (f : EncodeFault) (hP : ¬P) : Decides E (Write.failWith n f) P := by
  unfold Write.failWith
  split_ifs with hwritable
  · exact decides_fail hE f hP
  · exact .throw (hn (Bool.eq_false_iff.2 hwritable)) hP

lemma decides_number (hv : v.integer? = some n) (hrange : target.range? = some (low, high))
    (hn : Number.isWritable n = false → E .badValue) :
    Decides E (Write.number target width v) (low ≤ n ∧ n ≤ high) := by
  simp only [Write.number, hv, hrange]
  split_ifs with hin
  · exact (Writes.put _).decides (by simpa using hin)
  · exact decides_failWith hE hn _ (by simpa using hin)

lemma decides_integer {c : Conduct} (hc : c.Regular) (hv : v.integer? = some n)
    (hrange : target.range? = some (low, high)) (hn : Number.isWritable n = false → E .badValue) :
    Decides E (Write.integer c target width v) (low ≤ n ∧ n ≤ high) := by
  have hcomparable : Write.isIncomparable c target v = false := by
    simp [Write.isIncomparable, hv, hrange, hc.lacks]
  rw [Write.integer, hcomparable, if_neg (by simp)]
  exact decides_number hE hv hrange hn

lemma decides_length (bound : Option Int) {n : Nat}
    (hn : Number.isWritable n = false → E .badValue) :
    Decides E (Write.length (.int n) bound) (IsLength bound n) := by
  have hnumber : Decides E (Write.number .uint 4 (.int n)) (n < 256 ^ 4) :=
    (decides_number hE rfl rfl hn).congr (by omega)
  cases bound with
  | none => exact hnumber.congr (by simp [IsLength])
  | some b =>
    rw [length_some]
    split_ifs with hb
    · exact decides_failWith hE hn _ fun h => absurd (h.2 b rfl) (not_le.2 hb)
    · exact hnumber.congr ⟨fun h => ⟨h, by simpa using hb⟩, fun h => h.1⟩

lemma decides_fixedOpaque (n : Int) (bs : List UInt8)
    (hlies : storage ≠ .sparse) : Decides E (Write.fixedOpaque n (.bytes bs storage)) ((bs.length : Int) = n) := by
  rw [Write.fixedOpaque]
  split_ifs with hn
  · exact (writes_padded hlies bs).decides hn
  · exact decides_fail hE _ hn

lemma decides_varOpaque (bound : Option Int)
    (hn : Number.isWritable bs.length = false → E .badValue)
    (hlies : storage ≠ .sparse) : Decides E (Write.varOpaque bound (.bytes bs storage)) (IsLength bound bs.length) := by
  refine ((decides_length hE bound hn).bind fun _ => ?_).congr (and_iff_left True.intro)
  exact (writes_padded hlies bs).decides True.intro

section

variable {item : Value → Write} {holds : Value → Prop} {items : List Value}
  (h : ∀ v ∈ items, Decides E (item v) (holds v))

include h

lemma decides_fixedArray (n : Int) : Decides E (Write.fixedArray n (some items) item)
    ((items.length : Int) = n ∧ ∀ v ∈ items, holds v) := by
  rw [Write.fixedArray]
  split_ifs with hn
  · exact (Decides.each h).congr (by simp [hn])
  · exact decides_fail hE _ fun hnot => hn hnot.1

lemma decides_array (bound : Option Int) (hn : Number.isWritable items.length = false → E .badValue) :
    Decides E (Write.array bound (some items) item)
      (IsLength bound items.length ∧ ∀ v ∈ items, holds v) :=
  (decides_length hE bound hn).bind fun _ => .each h

end

end

end Xdr
