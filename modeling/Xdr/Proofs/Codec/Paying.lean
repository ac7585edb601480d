import Xdr.Proofs.Codec.Chains
import Xdr.Proofs.Codec.Fuel
import Xdr.Proofs.Codec.Quiet

/-!
# Readers that take bytes

Where no row of a fixed length is empty, each thing that is read takes four bytes at least: a value
of a form, an item of a row, a node of a list and an instance of a class.
-/

namespace Xdr

open Unpack List

variable {item : Read Value} {c : ChainBody} {form : Form}

section

variable {α β : Type} {strict : Bool}

def Pays (strict : Bool) (r : Read α) (count : α → Nat) : Prop :=
  Takes strict r fun c a => 4 * count a ≤ c.length

lemma Pays.mono {r : Read α} {count fewer : α → Nat} (h : Pays strict r count)
    (hle : ∀ a, fewer a ≤ count a) : Pays strict r fewer :=
  Takes.mono h fun _ a hc => (Nat.mul_le_mul_left 4 (hle a)).trans hc

lemma Pays.pure {a : α} {count : α → Nat} (h : count a = 0) : Pays strict (Pure.pure a) count :=
  Takes.pure (by simp [h])

lemma Pays.throw (f : Fault) (count : α → Nat) : Pays strict (throw f) count := Takes.throw f

lemma Pays.settle (x : Except Fault α) : Pays strict (settle x) fun _ => 0 := by
  cases x with
  | ok a => exact .pure rfl
  | error f => exact .throw f _

lemma Pays.bind {x : Read α} {f : α → Read β} {count : α → Nat} {total : β → Nat}
    (hx : Pays strict x count) (hf : ∀ a, Pays strict (f a) fun b => total b - count a) :
    Pays strict (x >>= f) total := by
  refine Takes.bind hx fun c a hc => Takes.mono (hf a) fun e b he => ?_
  dsimp only at he
  rw [length_append]
  omega

lemma Pays.run {r : Read α} {count : α → Nat} (h : Pays strict r count) {i j : Input}
    (hi : 0 ≤ i.offset) {a : α} (hrun : r i = (.ok a, j)) :
    j.rest.length + 4 * count a ≤ i.rest.length := by
  obtain ⟨data, rest, offset⟩ := i
  obtain ⟨k, rfl⟩ := Int.eq_ofNat_of_zero_le hi
  obtain ⟨cells, bs, tail, hfits, rfl, rfl, hpaid⟩ := h data rest k a j hrun
  have hlength := hfits.length_eq
  simp only [length_append]
  omega

lemma Pays.signedWord : Pays strict (Read.signedWord 4) fun _ => 1 := by
  refine (takes_signedWord 4).mono ?_
  rintro c n ⟨-, rfl⟩
  simp [Wire.signedBytes_length]

lemma Pays.flag : Pays strict Read.flag fun _ => 1 := by
  refine takes_flag.mono ?_
  rintro c b rfl
  simp

lemma Pays.length (bound : Option Int) : Pays strict (Read.length bound) fun _ => 1 := by
  refine (takes_length bound).mono ?_
  rintro c n ⟨-, rfl⟩
  simp

lemma Pays.enum (e : EnumClass) : Pays strict (Read.enum e) fun _ => 1 := by
  refine (takes_enum e).mono ?_
  rintro c v ⟨variant, n, -, -, -, rfl⟩
  simp

lemma Pays.scalar (b : Builtin) : Pays strict (Read.scalar b) fun _ => 1 := by
  refine (takes_scalar (R := fun _ _ => True) (fun _ _ => trivial) b).mono fun c v h => ?_
  cases h <;> simp [Wire.bigEndian_length, Wire.signedBytes_length]

lemma Pays.fixedOpaque {n : Nat} (hn : 0 < n) : Pays strict (Read.fixedOpaque strict n) fun _ => 1 := by
  refine (takes_fixedOpaque n).mono ?_
  rintro c bs ⟨rfl, rfl⟩
  -- whole units are taken, and there is a byte
  refine Nat.le_of_dvd ?_ (Cells.dvd_padded bs)
  rw [Cells.length_padded, padded]
  omega

lemma Pays.varOpaque (bound : Option Int) : Pays strict (Read.varOpaque strict bound) fun _ => 1 := by
  refine (takes_varOpaque bound).mono ?_
  rintro c bs ⟨-, rfl⟩
  simp

lemma Pays.string (bound : Option Int) : Pays strict (Read.string strict bound) fun _ => 1 := by
  refine (takes_string bound).mono ?_
  rintro c s ⟨-, rfl⟩
  simp

lemma Pays.repeated (h : Pays strict item fun _ => 1) (n : Nat) (done : List Value) :
    Takes strict (Read.repeated item n done) fun c items =>
      items.length = done.length + n ∧ 4 * n ≤ c.length := by
  induction n generalizing done with
  | zero => exact Takes.pure (by simp)
  | succ n ih =>
    refine Takes.bind h fun c v hc => (ih (v :: done)).mono ?_
    rintro e items ⟨hlength, he⟩
    dsimp only at hc
    rw [length_cons] at hlength
    rw [length_append]
    omega

def Value.rowLength : Value → Nat
  | list items => items.length
  | _ => 0

lemma Pays.fixedArray (h : Pays strict item fun _ => 1) (n : Int) :
    Takes strict (Read.fixedArray n item) fun c v =>
      v.rowLength = n.toNat ∧ 4 * v.rowLength ≤ c.length := by
  refine (h.repeated n.toNat []).bind ?_
  rintro c items ⟨hlength, hc⟩
  rw [length_nil, Nat.zero_add] at hlength
  refine Takes.pure ⟨hlength, ?_⟩
  rw [append_nil, Value.rowLength]
  omega

lemma Pays.array (h : Pays strict item fun _ => 1) (bound : Option Int) :
    Pays strict (Read.array bound item) fun v => v.rowLength + 1 := by
  refine (Pays.length bound).bind fun n => ?_
  exact (h.fixedArray n).mono fun c v hc => hc.2

end

def Form.Filled : Form → Prop
  | fixedOpaque n => 0 < n
  | optional item => item.Filled
  | fixedArray n item => 0 < n ∧ item.Filled
  | array _ item => item.Filled
  | _ => True

def Form.isRow : Form → Bool
  | fixedArray _ _ => true
  | array _ _ => true
  | _ => false

lemma Schema.elementForm_filled (s : Schema) (mention : String → Mention) (b : Base) :
    (s.elementForm mention b).Filled := by
  unfold elementForm
  split
  · trivial
  · split <;> trivial

lemma Schema.form_filled (s : Schema) (mention : String → Mention) {shape : Shape}
    (h : shape.arity = .fixed → 0 < shape.count) : (s.form mention shape).Filled := by
  have helement := s.elementForm_filled mention
  unfold form
  dsimp only
  split
  · rename_i hfixed
    exact Int.natCast_pos.2 (h hfixed)
  · trivial
  · trivial
  · exact helement _
  · exact helement _
  · rename_i hfixed _ _
    exact ⟨Int.natCast_pos.2 (h hfixed), helement _⟩
  · exact helement _

section

variable {d : Decoder} (hd : ∀ key, Pays d.strict (d.unpack key) fun _ => 1)

lemma Pays.readVariant (d : Decoder) (m : Mention) : Pays d.strict (m.readVariant d) fun _ => 1 := by
  have hlift : ∀ x : Except Fault Value, Pays d.strict (liftM x : Read Value) fun _ => 1 - 1 := by
    intro x
    cases x with
    | ok v => exact .pure rfl
    | error f => exact .throw f _
  cases m with
  | enum e => exact .enum e
  | nothing f => exact .throw f _
  | _ => exact Pays.signedWord.bind fun n => hlift _

include hd

lemma Pays.readInstance (m : Mention) : Pays d.strict (m.readInstance d) fun _ => 1 := by
  cases m with
  | enum e | variant e => exact .enum e
  | cls key => exact hd key
  | other => exact .throw _ _
  | nothing f => exact .throw f _

lemma Pays.read (h : form.Filled) : Pays d.strict (form.read d) fun _ => 1 := by
  induction form with
  | scalar b => exact .scalar b
  | enum m => exact .readVariant d m
  | cls m => exact .readInstance hd m
  | length bound => exact (Pays.length bound).bind fun _ => .pure rfl
  | fixedOpaque n =>
    obtain ⟨k, rfl⟩ := Int.eq_ofNat_of_zero_le (le_of_lt h)
    exact (Pays.fixedOpaque (Int.natCast_pos.1 h)).bind fun _ => .pure rfl
  | varOpaque bound => exact (Pays.varOpaque bound).bind fun _ => .pure rfl
  | string bound => exact (Pays.string bound).bind fun _ => .pure rfl
  | flag => exact Pays.flag.bind fun _ => .pure rfl
  | optional item ih =>
    refine Pays.flag.bind fun more => ?_
    cases more with
    | true => exact (ih h).mono fun _ => by simp
    | false => exact .pure rfl
  | fixedArray n item ih =>
    refine ((ih h.2).fixedArray n).mono ?_
    rintro c v ⟨hlength, hc⟩
    have hpos := h.1
    dsimp only
    omega
  | array bound item ih => exact ((ih h).array bound).mono fun _ => by simp

lemma Pays.read_row (h : form.Filled) (hrow : form.isRow = true) :
    Pays d.strict (form.read d) Value.rowLength := by
  cases form with
  | fixedArray n item => exact ((Pays.read hd h.2).fixedArray n).mono fun c v hc => hc.2
  | array bound item => exact ((Pays.read hd (show item.Filled from h)).array bound).mono fun _ => by simp
  | _ => cases hrow

lemma Pays.values {slots : List Slot} (h : ∀ x ∈ slots, x.form.Filled) :
    Pays d.strict (values d slots) fun _ => slots.length := by
  induction slots with
  | nil => exact .pure rfl
  | cons x rest ih =>
    obtain ⟨hx, hrest⟩ := forall_mem_cons.1 h
    refine (Pays.read hd hx).bind fun v => (ih hrest).bind fun vs => .pure ?_
    rw [length_cons]
    omega

lemma Pays.heads (h : ∀ x ∈ c.before, x.form.Filled) (n : Nat) (done : List (List Value)) :
    Takes d.strict (heads d c n done) fun cells found =>
      done.length < found.length ∧ 4 * (found.length - done.length) ≤ cells.length := by
  induction n generalizing done with
  | zero => exact Takes.throw _
  | succ n ih =>
    refine Takes.bind (Pays.values hd h) fun cs head _ => ?_
    refine takes_flag.bind ?_
    rintro fs more rfl
    cases more with
    | true =>
      refine (ih (head :: done)).mono ?_
      rintro es found ⟨hmore, hpaid⟩
      simp only [length_cons, length_append, Cells.length_word] at hmore hpaid ⊢
      omega
    | false =>
      refine Takes.pure ?_
      simp only [length_cons, length_append, Cells.length_word]
      omega

lemma Pays.nodes (h : ∀ x ∈ c.behind, x.form.Filled) (key : ClassKey) (found : List (List Value))
    (next : Value) : Pays d.strict (nodes d key c found next) fun _ => 0 := by
  induction found generalizing next with
  | nil => exact .pure rfl
  | cons head rest ih =>
    refine (Pays.settle _).bind fun link => (Pays.values hd h).bind fun tail => ?_
    exact (Pays.settle _).bind fun node => (ih node).mono fun _ => by omega

lemma Pays.build (m : Module) {b : Branch} (h : ∀ form ∈ b.payload, form.Filled) (disc : Value) :
    Pays d.strict (build m d b disc) fun _ => 0 := by
  refine (Pays.settle b.target).bind fun target => ?_
  cases hpayload : b.payload with
  | none => exact .settle _
  | some form =>
    exact (Pays.read hd (h form hpayload)).bind fun v => (Pays.settle _).mono fun _ => by omega

end

structure Body.Filled (b : Body) : Prop where
  forms : ∀ form ∈ b.forms, form.Filled
  some : b ≠ .record []

/-- What the classes of a module do to decode at most so many levels. -/
def Module.decoderFor (m : Module) (strict : Bool) (n : Nat) : Decoder :=
  ⟨strict, m.unpack strict n, fun key args => m.construct key args []⟩

section

variable {d : Decoder} (hd : ∀ key, Pays d.strict (d.unpack key) fun _ => 1)

include hd

lemma Pays.union (m : Module) {u : UnionBody} (h : (Body.union u).Filled) :
    Pays d.strict (union m d u) fun _ => 1 := by
  obtain ⟨hdisc, hbranch⟩ := Body.forall_union.1 h.forms
  refine (Pays.read hd hdisc).bind fun disc => ?_
  cases hselect : select m disc u.branches with
  | error f => exact .throw f _
  | ok selected =>
    rw [settle_ok_bind]
    cases selected with
    | some b => exact .build hd m (hbranch b (mem_append_left _ (mem_of_select hselect))) disc
    | none =>
      cases hdefault : u.fallback with
      | some b => exact .build hd m (hbranch b (by simp [hdefault])) disc
      | none =>
        refine Takes.offset fun start => ?_
        exact (Pays.settle _).bind fun text => .throw _ _

lemma Pays.own (m : Module) (n : Nat) {key : ClassKey}
    (h : ∀ b, m.body? key.reader = some b → b.Filled) : Pays d.strict (own m d n key) fun _ => 1 := by
  rw [own_eq]
  split_ifs
  · exact .throw _ _
  · cases hbody : m.body? key.reader with
    | none => exact .throw _ _
    | some b =>
      have hb := h b hbody
      cases b with
      | record slots =>
        have hslots : 1 ≤ slots.length :=
          length_pos_iff.2 fun hnil => hb.some (congrArg Body.record hnil)
        refine (Pays.values hd (forall_mem_map.1 hb.forms)).bind fun vs => ?_
        exact (Pays.settle _).mono fun _ => by omega
      | chain c =>
        obtain ⟨hbefore, hbehind⟩ := Body.forall_chain.1 hb.forms
        have hheads : Pays d.strict (Unpack.heads d c n []) fun _ => 1 := by
          refine (Pays.heads hd hbefore n []).mono ?_
          rintro cells found ⟨hsome, hpaid⟩
          dsimp only
          omega
        refine hheads.bind fun found => (Pays.settle _).bind fun _ => ?_
        exact .nodes hd hbehind _ found .null
      | union u => exact .union hd m hb
      | arm a => exact .throw _ _

end

lemma Pays.unpack {m : Module} (h : ∀ key b, m.body? key = some b → b.Filled) (strict : Bool)
    (n : Nat) (key : ClassKey) : Pays strict (m.unpack strict n key) fun _ => 1 := by
  induction n generalizing key with
  | zero => exact .throw _ _
  | succ n ih => exact Pays.own (d := m.decoderFor strict n) ih m (n + 1) (h key.reader)

namespace Linker

variable {l : Linker} {t : TypeInfo} {entry : ClassKey × Option Nat × Body} {form : Form}

lemma exists_field {d : StructType} (h : form ∈ (l.structBody d).forms) :
    ∃ f ∈ d.fields, ∃ key, form = l.form key f.toShape := by
  have hslots : ∀ fields ⊆ d.plan, ∀ key,
      form ∈ (fields.map fun f => l.slot key f.1 f.2.toShape).map (·.form) →
        ∃ f ∈ d.fields, ∃ key, form = l.form key f.toShape := by
    intro fields hsub key hform
    obtain ⟨x, hx, rfl⟩ := mem_map.1 hform
    obtain ⟨f, hf, rfl⟩ := mem_map.1 hx
    obtain ⟨m, hm, rfl⟩ := mem_map.1 (hsub hf)
    exact ⟨m, hm, key, rfl⟩
  unfold structBody at h
  dsimp only at h
  cases hchain : l.schema.chain? d with
  | none =>
    rw [hchain] at h
    exact hslots _ (List.Subset.refl _) _ h
  | some c =>
    obtain ⟨decl, hsplit, -⟩ := Schema.chain?_spec hchain
    simp only [hchain, Body.forms, ← map_append] at h
    refine hslots _ ?_ _ h
    rw [hsplit]
    exact append_subset.2 ⟨subset_append_left _ _, fun f hf =>
      mem_append_right _ (.tail _ hf)⟩

/-- The forms of a body are those of members, the discriminant's apart, which is no row. -/
lemma exists_shape (h : entry ∈ l.bodies t) (hform : form ∈ entry.2.2.forms) :
    ∃ key shape, form = l.form key shape ∧
      (shape.arity = .fixed → ∃ d ∈ t.definition.members, d.toShape = shape) := by
  unfold bodies at h
  dsimp only at h
  split at h
  · cases h
  · rename_i d hd
    cases mem_singleton.1 h
    obtain ⟨f, hf, key, rfl⟩ := exists_field hform
    exact ⟨key, _, rfl, fun _ => ⟨f, by rw [hd]; exact hf, rfl⟩⟩
  · rename_i d hd
    cases mem_singleton.1 h
    exact ⟨_, _, mem_singleton.1 hform, fun _ => ⟨d.decl, by rw [hd]; exact .head _, rfl⟩⟩
  · rename_i u hu
    split at h
    · cases h
    · rename_i p hp
      rcases mem_cons.1 h with rfl | h
      · rcases mem_cons.1 hform with rfl | hform
        · refine ⟨_, p.disc, rfl, fun hfixed => ?_⟩
          rw [(Schema.unionPlan?_disc hp).1] at hfixed
          cases hfixed
        · obtain ⟨b, hb, hpayload⟩ := mem_filterMap.1 hform
          obtain ⟨a, ha, rfl⟩ := exists_arm rfl hb
          obtain ⟨_, -, rfl⟩ := Option.map_eq_some_iff.1 hpayload
          exact ⟨_, _, rfl, fun _ => ⟨a.decl, by
            rw [hu]; exact .tail _ (Schema.decl_mem_of_arm hp ha), rfl⟩⟩
      · obtain ⟨a, -, rfl⟩ := mem_map.1 h
        cases hform

lemma forward_and_quiet (h : entry ∈ l.bodies t) (hform : form ∈ entry.2.2.forms) :
    form.Forward ∧ form.Quiet := by
  obtain ⟨key, shape, rfl, -⟩ := exists_shape h hform
  exact ⟨l.schema.form_forward _ shape, l.quiet_form key shape⟩

lemma filled_of_mem_bodies (hrows : ∀ d ∈ t.definition.members, d.arity = .fixed → 0 < d.count)
    (hsome : ∀ d, t.definition = .struct d → d.fields ≠ []) (h : entry ∈ l.bodies t) :
    entry.2.2.Filled := by
  refine ⟨fun form hform => ?_, fun hnil => ?_⟩
  · obtain ⟨key, shape, rfl, hmember⟩ := exists_shape h hform
    refine l.schema.form_filled _ fun hfixed => ?_
    obtain ⟨d, hd, rfl⟩ := hmember hfixed
    exact hrows d hd hfixed
  · unfold bodies at h
    dsimp only at h
    split at h
    · cases h
    · rename_i d hd
      cases mem_singleton.1 h
      unfold structBody at hnil
      dsimp only at hnil
      split at hnil
      · simp only [Body.record.injEq, map_eq_nil_iff, StructType.plan] at hnil
        exact hsome d hd hnil
      · cases hnil
    · cases mem_singleton.1 h
      cases hnil
    · split at h
      · cases h
      · rcases mem_cons.1 h with rfl | h
        · cases hnil
        · obtain ⟨a, -, rfl⟩ := mem_map.1 h
          cases hnil

end Linker

end Xdr
