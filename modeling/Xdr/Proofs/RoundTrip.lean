import Xdr.Proofs.Codec.Entry

/-!
# Identity and round trips

Whether two values are the same, down to how their bytes are stored, can be decided. Modules compare
values by rules of their own, which say less.
-/

namespace Xdr.Value

variable {found : Except Fault (Value × List UInt8)}

mutual

def same : Value → Value → Bool
  | null, null => true
  | bool a, bool b => a = b
  | int a, int b => a = b
  | float a, float b => a = b
  | str a, str b => a = b
  | bytes as a, bytes bs b => as = bs ∧ a = b
  | list as, list bs => sameItems as bs
  | member a v m, member b w n => a = b ∧ v = w ∧ m = n
  | object a fs, object b gs => a = b && sameFields fs gs
  | cls a, cls b => a = b
  | library a, library b => a = b
  | measurer a, measurer b => a = b
  | thing a, thing b => a = b
  | _, _ => false

def sameItems : List Value → List Value → Bool
  | [], [] => true
  | v :: vs, w :: ws => v.same w && sameItems vs ws
  | _, _ => false

def sameFields : List (String × Value) → List (String × Value) → Bool
  | [], [] => true
  | f :: fs, g :: gs => sameField f g && sameFields fs gs
  | _, _ => false

def sameField : String × Value → String × Value → Bool
  | (a, v), (b, w) => a = b && v.same w

end

mutual

lemma same_iff : ∀ v w : Value, v.same w = true ↔ v = w
  | null, w | bool _, w | int _, w | float _, w | str _, w | bytes _ _, w => by
    cases w <;> simp [same]
  | list vs, w => by
    cases w with
    | list ws => simp [same, sameItems_iff vs ws]
    | _ => simp [same]
  | member _ _ _, w => by cases w <;> simp [same]
  | object _ fs, w => by
    cases w with
    | object _ gs => simp [same, sameFields_iff fs gs]
    | _ => simp [same]
  | cls _, w | library _, w | measurer _, w | thing _, w => by cases w <;> simp [same]

lemma sameItems_iff : ∀ vs ws : List Value, sameItems vs ws = true ↔ vs = ws
  | [], ws => by cases ws <;> simp [sameItems]
  | v :: vs, ws => by
    cases ws with
    | nil => simp [sameItems]
    | cons w ws => simp [sameItems, same_iff v w, sameItems_iff vs ws]

lemma sameFields_iff : ∀ fs gs : Fields, sameFields fs gs = true ↔ fs = gs
  | [], gs => by cases gs <;> simp [sameFields]
  | f :: fs, gs => by
    cases gs with
    | nil => simp [sameFields]
    | cons g gs =>
      simp [sameFields, sameField_iff f g, sameFields_iff fs gs]

lemma sameField_iff : ∀ f g : String × Value, sameField f g = true ↔ f = g
  | (_, v), (_, w) => by simp [sameField, same_iff v w]

end

def isFound (v : Value) (rest : List UInt8) : Except Fault (Value × List UInt8) → Bool
  | .ok (w, left) => w.same v && left = rest
  | .error _ => false

lemma eq_of_isFound {v : Value} {rest : List UInt8} (h : v.isFound rest found = true) :
    found = .ok (v, rest) := by
  cases found with
  | error f => cases h
  | ok pair =>
    obtain ⟨w, left⟩ := pair
    rw [isFound, Bool.and_eq_true, same_iff, decide_eq_true_eq] at h
    rw [h.1, h.2]

def isRefused (f : Fault) : Except Fault (Value × List UInt8) → Bool
  | .ok _ => false
  | .error g => g = f

lemma eq_of_isRefused {f : Fault} (h : isRefused f found = true) : found = .error f := by
  cases found with
  | ok pair => cases h
  | error g =>
    rw [isRefused, decide_eq_true_eq] at h
    rw [h]

end Xdr.Value

/-! ## Round trips -/

namespace Xdr

open Wire

namespace Number

/-- A number that can be stored in eight bytes and compared. -/
def IsReal (bits : UInt64) : Prop := ¬ IsNan bits.toNat

/-- A number that can be stored in four bytes without loss. -/
def IsSingle (bits : UInt64) : Prop := IsReal bits ∧ ∃ n < 2 ^ 32, bits = UInt64.ofNat (widen n)

/-- The four bytes of a number that is stored in them without loss. -/
def Stored (bits : UInt64) (n : Nat) : Prop :=
  bits = UInt64.ofNat (widen n) ∧ narrow? bits.toNat = some n

instance (bits : UInt64) : Decidable (IsReal bits) :=
  match h : binary64.datum bits.toNat with
  | .nan negative payload => isFalse fun hreal => hreal ⟨negative, payload, h⟩
  | .finite _ _ _ => isTrue fun ⟨_, _, hnan⟩ => by rw [h] at hnan; cases hnan
  | .infinite _ => isTrue fun ⟨_, _, hnan⟩ => by rw [h] at hnan; cases hnan

lemma toNat_ofNat_widen (n : Nat) : (UInt64.ofNat (widen n)).toNat = widen n := by
  rw [UInt64.toNat_ofNat', Nat.mod_eq_of_lt (widen_lt n)]

lemma stored_widen {n : Nat} (hn : n < 2 ^ 32) (h : IsReal (UInt64.ofNat (widen n))) :
    Stored (UInt64.ofNat (widen n)) n := by
  rw [IsReal, toNat_ofNat_widen] at h
  exact ⟨rfl, by rw [toNat_ofNat_widen, narrow?_widen_of_not_isNan hn h]⟩

lemma IsSingle.stored {bits : UInt64} {n : Nat} (h : IsSingle bits)
    (hn : narrow? bits.toNat = some n) : n < 2 ^ 32 ∧ Stored bits n := by
  obtain ⟨hreal, k, hk, rfl⟩ := h
  have hstored := stored_widen hk hreal
  cases hn.symm.trans hstored.2
  exact ⟨hk, hstored⟩

end Number

/-- The encoding of a value, with anything behind it, is decoded to an equal value, and what is behind
it is left over. -/
theorem decode_encode_append {spec : Ast.Specification} {c : Config} {s : Schema} {m : Module}
    (hgen : Generates spec c s m) (hnames : s.Unambiguous) {t : TypeInfo} (ht : t ∈ s.types) {v : Value}
    (hv : s.HasType Number.IsSingle Number.IsReal t.name v) {bytes : List UInt8}
    (henc : m.encode v = .ok bytes) (tail : List UInt8) (strict : Bool) :
    ∃ w, m.decodeType t.name strict (bytes ++ tail) = .ok (w, tail) ∧
      m.equal w v = .ok (.bool true) := by
  obtain ⟨lib, -, hm⟩ := hgen.faithful hnames
  obtain ⟨rank, hrank⟩ := hgen.ranked
  have hfind := hgen.sound.find?_name ht
  obtain ⟨cells, hlaid, rfl⟩ := hm.laid_of_encode hfind hgen.sound
    (fun _ _ => Number.IsSingle.stored) hv henc
  refine ⟨v.viewed, ?_, hm.equal_viewed (fun _ h => h.1) (fun _ h => h) hv⟩
  rw [hgen.decodeType_eq hnames ht]
  exact hm.decodeAs_of_laid hfind hgen.sound hrank (fun _ _ h => h.1) hlaid
    (Cells.fits_zeroed strict cells) tail

theorem decode_encode_append_two : ∃ w,
    Entries.loaded.decodeType "entry" true (Entries.twoBytes ++ [7]) = .ok (w, [7]) ∧
      Entries.loaded.equal w (Entries.two .growable) = .ok (.bool true) := by
  have hfirst : Number.IsSingle 0x3FF0000000000000 :=
    ⟨by decide +kernel, 0x3F800000, by decide, by decide +kernel⟩
  have hlast : Number.IsSingle 0x3FF8000000000000 :=
    ⟨by decide +kernel, 0x3FC00000, by decide, by decide +kernel⟩
  exact decode_encode_append Entries.generates Entries.schema_unambiguous Entries.entryType_mem
    (Entries.two_hasType (by decide) hfirst hlast) (by decide +kernel) [7] true

/-- What was decoded can be encoded. The encoding has a byte for each byte that was taken: the same
one, or zero for one of padding. Strict decoding leads from it to the same value. -/
theorem encode_decode {spec : Ast.Specification} {c : Config} {s : Schema} {m : Module}
    (hgen : Generates spec c s m) (hnames : s.Unambiguous) {t : TypeInfo} (ht : t ∈ s.types)
    {strict : Bool} {data rest : List UInt8} {v : Value}
    (hdec : m.decodeType t.name strict data = .ok (v, rest)) (hv : v.AllFloats Number.IsReal) :
    ∃ cells taken, data = taken ++ rest ∧ s.Laid Number.Stored t.name v cells ∧
      cells.Fits strict taken ∧ m.encode v = .ok cells.zeroed ∧ cells.zeroed.length = taken.length ∧
      m.decodeType t.name true cells.zeroed = .ok (v, []) ∧
      (strict = true → cells.zeroed ++ rest = data) := by
  obtain ⟨lib, -, hm⟩ := hgen.faithful hnames
  obtain ⟨rank, hrank⟩ := hgen.ranked
  have hfind := hgen.sound.find?_name ht
  rw [hgen.decodeType_eq hnames ht] at hdec
  obtain ⟨cells, taken, hlaid, hfits, rfl, hviewed⟩ := hm.laid_of_decodeAs hfind hgen.sound
    (fun _ => Number.stored_widen) hdec hv
  have hagain := hm.decodeAs_of_laid hfind hgen.sound hrank (fun _ _ h => h.1) hlaid
    (Cells.fits_zeroed true cells) []
  rw [List.append_nil, hviewed] at hagain
  refine ⟨cells, taken, rfl, hlaid, hfits, ?_, ?_, ?_, ?_⟩
  · exact hm.encode_of_laid hfind hgen.sound (fun _ _ _ h => h.2) hlaid hv
  · rw [Cells.length_zeroed, hfits.length_eq]
  · rw [hgen.decodeType_eq hnames ht, hagain]
  · rintro rfl
    rw [hfits.eq_zeroed]

theorem encode_decode_two : ∃ cells taken, Entries.twoBytes.set 5 9 ++ [7] = taken ++ [7] ∧
    Entries.schema.Laid Number.Stored "entry" (Entries.two .view) cells ∧ cells.Fits false taken ∧
    Entries.loaded.encode (Entries.two .view) = .ok cells.zeroed ∧
    cells.zeroed.length = taken.length ∧
    Entries.loaded.decodeType "entry" true cells.zeroed = .ok (Entries.two .view, []) ∧
    (false = true → cells.zeroed ++ [7] = Entries.twoBytes.set 5 9 ++ [7]) := by
  have hreal : (Entries.two .view).AllFloats Number.IsReal := by
    simp only [Entries.two, Entries.entry, Value.AllFloats, Value.AllFloatsFields,
      Value.AllFloatsField]
    decide +kernel
  have hdec : Entries.loaded.decodeType "entry" false (Entries.twoBytes.set 5 9 ++ [7]) =
      .ok (Entries.two .view, [7]) := Value.eq_of_isFound (by decide +kernel)
  exact encode_decode Entries.generates Entries.schema_unambiguous Entries.entryType_mem hdec hreal

/-! ## Sizes on the wire -/

namespace Schema

variable {s : Schema} {R : UInt64 → Nat → Prop} {name : String} {v : Value} {cells : Cells}
  (h : s.Laid R name v cells)

include h

lemma Laid.dvd_length : 4 ∣ cells.length :=
  dvd_of_form (FormLaid.imp h (P := fun _ => True) (Value.allFloats_of_forall (fun _ => trivial) v)
    (fun _ _ _ hw _ _ _ _ => hw.dvd_length) fun _ _ _ hR => hR)

lemma Laid.length_eq {t : TypeInfo} (ht : s.find? name = some t) (hsized : s.Sized) {n : Nat}
    (hn : t.size = .fixed n) : cells.length = n := by
  have hsize : s.sizeOf (.scalar (.named name)) = .fixed n := by
    simp [sizeOf, Shape.sizeWith_eq, Shape.scalar, ht, hn, Base.isBytes]
  exact length_of_shape hsized (fun _ _ _ hw => hw.meets hsized) hsize h

end Schema

/-- The size that a value tells is the length of its encoding, a multiple of four. When the type has a
fixed size, every encoding has it, and decoding takes as many bytes. -/
theorem wireSize_eq_length {spec : Ast.Specification} {c : Config} {s : Schema} {m : Module}
    (hgen : Generates spec c s m) (hnames : s.Unambiguous)
    (hsupport : Imports.support? c.runtimeModule = some .whole) {t : TypeInfo} (ht : t ∈ s.types) :
    (∀ v bytes, s.HasType (fun _ => True) (fun _ => True) t.name v → m.encode v = .ok bytes →
      m.wireSize v = .ok bytes.length ∧ 4 ∣ bytes.length ∧
      ∀ n, t.size = .fixed n → bytes.length = n) ∧
    ∀ strict data v rest n, t.size = .fixed n → m.decodeType t.name strict data = .ok (v, rest) →
      data.length = n + rest.length := by
  obtain ⟨lib, hfound, hm⟩ := hgen.faithful hnames
  cases hsupport.symm.trans hfound
  have hfind := hgen.sound.find?_name ht
  refine ⟨fun v bytes hv henc => ?_, fun strict data v rest n hn hdec => ?_⟩
  · obtain ⟨cells, hlaid, rfl⟩ := hm.laid_of_encode hfind hgen.sound
      (fun _ _ _ h => ⟨Number.narrow?_lt h, h⟩) hv henc
    rw [Cells.length_zeroed]
    exact ⟨hm.wireSize_of_laid hfind hgen.sized hlaid, Schema.Laid.dvd_length hlaid,
      fun n hn => Schema.Laid.length_eq hlaid hfind hgen.sized hn⟩
  · rw [hgen.decodeType_eq hnames ht] at hdec
    obtain ⟨cells, taken, hlaid, hfits, rfl, -⟩ := hm.laid_of_decodeAs hfind hgen.sound
      (R := fun bits n => bits = UInt64.ofNat (Number.widen n)) (P := fun _ => True)
      (fun _ _ _ => rfl) hdec (Value.allFloats_of_forall (fun _ => trivial) v)
    rw [List.length_append, hfits.length_eq, Schema.Laid.length_eq hlaid hfind hgen.sized hn]

theorem wireSize_eq_length_two :
    Entries.loaded.wireSize (Entries.two .fixed) = .ok Entries.twoBytes.length ∧
    ∀ strict data v rest, Entries.loaded.decodeType "color" strict data = .ok (v, rest) →
      data.length = 4 + rest.length := by
  have htwo := (wireSize_eq_length Entries.generates Entries.schema_unambiguous (by decide)
    Entries.entryType_mem).1 (Entries.two .fixed) Entries.twoBytes
    (Entries.two_hasType (by decide) trivial trivial) (by decide +kernel)
  have hcolor := (wireSize_eq_length Entries.generates Entries.schema_unambiguous (by decide)
    (t := Entries.schema.types.head (by decide +kernel)) (List.head_mem _)).2
  exact ⟨htwo.1, fun strict data v rest => hcolor strict data v rest 4 (by decide +kernel)⟩

end Xdr
