import Xdr.Proofs.Compilation
import Xdr.Proofs.Totality

/-!
# What is decoded is paid for

A length on the wire is a claim only.
-/

namespace Xdr

open Unpack List

variable {c : Cells} {fields : List (String × Form)} {vs : Fields} {v : Value}
  {key : ClassKey} {items : List Value} {form item : Form} {m : Module} {name : String}

def Schema.NoEmptyRows (s : Schema) : Prop :=
  ∀ t ∈ s.types, ∀ d ∈ t.definition.members, d.arity = .fixed → d.length ≠ some 0

structure Schema.Filled (s : Schema) : Prop where
  rows : ∀ t ∈ s.types, ∀ d ∈ t.definition.members, d.arity = .fixed → 0 < d.count
  fields : ∀ t ∈ s.types, ∀ d, t.definition = .struct d → d.fields ≠ []

lemma filled_of_compile {filename source : String} {accepted : Accepted}
    (h : (compile filename source).outcome = .ok accepted) (hrows : accepted.schema.NoEmptyRows) :
    accepted.schema.Filled := by
  obtain ⟨tokens, -, spec, -, -, -, hwritten, hs⟩ := exists_built_of_compile h
  have hcomplete := complete_of_written hwritten hs
  refine ⟨fun t ht d hd hfixed => ?_, fun t ht d hd hnil => ?_⟩
  · have hlength := hcomplete.fixed t ht d hd hfixed
    have hzero := hrows t ht d hd hfixed
    rw [Shape.count]
    cases hn : d.length with
    | none => exact absurd hn hlength
    | some n =>
      rw [hn, Ne, Option.some.injEq] at hzero
      exact Nat.pos_of_ne_zero hzero
  · obtain ⟨w, hw, hres⟩ := exists_resolved_of_written hwritten hs ht
    rw [hd] at hres
    cases hres with
    | struct hname hfields =>
      have hlength := hfields.length_eq
      rw [hnil] at hlength
      exact hw.1 (length_eq_zero_iff.1 hlength)

lemma Generates.filled_bodies {spec : Ast.Specification} {c : Config} {s : Schema}
    (h : Generates spec c s m) (hs : s.Filled) : ∀ key b, m.body? key = some b → b.Filled := by
  obtain ⟨l, hbody⟩ := h.exists_linker
  intro key b hb
  obtain ⟨t, ht, size, hentry⟩ := hbody key b hb
  exact Linker.filled_of_mem_bodies (hs.rows t ht) (hs.fields t ht) hentry

namespace Value

mutual

def parts : Value → List Value
  | list items => list items :: partsItems items
  | object key fields => object key fields :: partsFields fields
  | v => [v]

def partsItems : List Value → List Value
  | [] => []
  | v :: rest => v.parts ++ partsItems rest

def partsFields : List (String × Value) → List Value
  | [] => []
  | f :: rest => partsField f ++ partsFields rest

def partsField : String × Value → List Value
  | (_, v) => v.parts

end

lemma parts_list (items : List Value) : (list items).parts = list items :: items.flatMap parts := by
  rw [parts]
  induction items with
  | nil => simp [partsItems]
  | cons v rest ih => simpa [partsItems] using ih

lemma parts_object (key : ClassKey) (fields : Fields) :
    (object key fields).parts = object key fields :: fields.flatMap fun f => f.2.parts := by
  rw [parts]
  induction fields with
  | nil => simp [partsFields]
  | cons f rest ih =>
    obtain ⟨name, v⟩ := f
    simpa [partsFields, partsField] using ih

/-- The value is an instance of a type; one of a union is an instance of the class of an arm. -/
def isOf (name : String) : Value → Bool
  | object key _ => key.reader = .type name
  | _ => false

/-- The number of instances of a type in a value. -/
def instances (name : String) (v : Value) : Nat := v.parts.countP (isOf name)

lemma instances_list (name : String) (items : List Value) :
    (list items).instances name = (items.map fun v => v.instances name).sum := by
  rw [instances, parts_list, countP_cons, countP_flatMap]
  simp [isOf, Function.comp_def, instances]

lemma instances_object (name : String) (key : ClassKey) (fields : Fields) :
    (object key fields).instances name =
      (fields.map fun f => f.2.instances name).sum + if key.reader = .type name then 1 else 0 := by
  rw [instances, parts_object, countP_cons, countP_flatMap]
  simp [isOf, Function.comp_def, instances]

end Value

structure Additive (f : Value → Nat) : Prop where
  list : ∀ items, f (.list items) = (items.map f).sum
  scalar : ∀ {R b v c}, ScalarLaid R b v c → f v = 0
  member : ∀ enum variant n, f (.member enum variant n) = 0
  bytes : ∀ bs storage, f (.bytes bs storage) = 0
  str : ∀ s, f (.str s) = 0
  null : f .null = 0

lemma additive_zero : Additive fun _ => 0 := by
  constructor <;> simp

lemma additive_instances (name : String) : Additive (Value.instances name) where
  list := Value.instances_list name
  scalar h := by cases h <;> rfl
  member _ _ _ := rfl
  bytes _ _ := rfl
  str _ := rfl
  null := rfl

section

variable {I : ClassKey → Value → Cells → Prop} {R : UInt64 → Nat → Prop} {f : Value → Nat}

lemma sum_of_items (h : ∀ v c, FormLaid I R item v c → 4 * f v ≤ c.length)
    (hitems : ItemsLaid I R item items c) : 4 * (items.map f).sum ≤ c.length := by
  induction items generalizing c with
  | nil => simp
  | cons v rest ih =>
    cases hitems with
    | cons hv hrest =>
      have hfirst := h v _ hv
      have hbehind := ih hrest
      rw [map_cons, sum_cons, length_append]
      omega

lemma FieldsLaid.length_pos (h : FieldsLaid I R fields vs c) (hsome : fields ≠ []) :
    0 < vs.length := by
  cases h with
  | nil => exact absurd rfl hsome
  | cons => simp

lemma sum_of_fields (h : ∀ x ∈ fields, ∀ v c, FormLaid I R x.2 v c → 4 * f v ≤ c.length)
    (hfields : FieldsLaid I R fields vs c) : 4 * (vs.map fun x => f x.2).sum ≤ c.length := by
  induction hfields with
  | nil => simp
  | cons hv _ ih =>
    have hfirst := h _ (.head _) _ _ hv
    have hbehind := ih fun x hx => h x (.tail _ hx)
    rw [map_cons, sum_cons, length_append]
    dsimp only
    omega

section

variable (hf : Additive f) (hI : ∀ key w e, I key w e → 4 * f w ≤ e.length)

include hf hI

lemma paid_of_form (h : FormLaid I R form v c) : 4 * f v ≤ c.length := by
  induction form generalizing v c with
  | scalar b =>
    cases h with
    | scalar h => simp [hf.scalar h]
  | enum m =>
    cases h with
    | enum => simp [hf.member]
  | cls m =>
    cases h with
    | cls h => exact hI _ _ _ h
  | length bound => cases h
  | fixedOpaque n =>
    cases h with
    | fixedOpaque => simp [hf.bytes]
  | varOpaque bound =>
    cases h with
    | varOpaque => simp [hf.bytes]
  | string bound =>
    cases h with
    | string => simp [hf.str]
  | flag => cases h
  | optional item ih =>
    cases h with
    | absent => simp [hf.null]
    | present _ h =>
      rw [length_append]
      exact (ih h).trans (Nat.le_add_left _ _)
  | fixedArray n item ih =>
    cases h with
    | fixedArray _ h =>
      rw [hf.list]
      exact sum_of_items (fun v c hv => ih hv) h
  | array bound item ih =>
    cases h with
    | array _ h =>
      rw [hf.list, length_append]
      exact (sum_of_items (fun v c hv => ih hv) h).trans (Nat.le_add_left _ _)

lemma spare_of_form (hfilled : form.Filled)
    (hheld : ∀ key, form.held = some key → ∀ w e, I key w e → 4 * (f w + 1) ≤ e.length)
    (h : FormLaid I R form v c) : 4 * (f v + 1) ≤ c.length := by
  have hbehind : ∀ {item : Form} {n : Nat} {w : Value} {e : Cells}, FormLaid I R item w e →
      4 * (f w + 1) ≤ (Cells.word n ++ e).length := by
    intro item n w e hw
    have hpaid := paid_of_form hf hI hw
    rw [length_append, Cells.length_word]
    omega
  induction form generalizing v c with
  | scalar b =>
    cases h with
    | scalar h =>
      rw [hf.scalar h]
      cases h <;> simp [Wire.bigEndian_length, Wire.signedBytes_length]
  | enum m =>
    cases h with
    | enum => simp [hf.member]
  | cls m =>
    cases h with
    | cls h => exact hheld _ rfl _ _ h
  | length bound => cases h
  | fixedOpaque n =>
    cases h with
    | @fixedOpaque _ bs _ hlength =>
      have hpos : 0 < bs.length := by
        have hn : 0 < n := hfilled
        omega
      rw [hf.bytes]
      refine Nat.le_of_dvd ?_ (Cells.dvd_padded bs)
      rw [Cells.length_padded, padded]
      omega
  | varOpaque bound =>
    cases h with
    | varOpaque => simp [hf.bytes]
  | string bound =>
    cases h with
    | string => simp [hf.str]
  | flag => cases h
  | optional item =>
    cases h with
    | absent => simp [hf.null]
    | present _ h => exact hbehind h
  | fixedArray n item ih =>
    cases h with
    | @fixedArray _ _ items _ hlength h =>
      have hitems : 4 * (items.map fun v => f v + 1).sum ≤ c.length :=
        sum_of_items (fun v c hv => ih hfilled.2 hheld hv) h
      have hsome := hfilled.1
      rw [sum_map_add, map_const', sum_replicate, smul_eq_mul, mul_one] at hitems
      rw [hf.list]
      omega
  | array bound item =>
    cases h with
    | array _ h =>
      have hpaid := sum_of_items (f := f) (fun v c hv => paid_of_form hf hI hv) h
      rw [hf.list, length_append, Cells.length_word]
      omega

end

lemma word_of_form (hI : ∀ key w e, I key w e → 4 ≤ e.length) (hfilled : form.Filled)
    (h : FormLaid I R form v c) : 4 ≤ c.length := by
  refine spare_of_form additive_zero (by simp) hfilled (fun key _ w e hw => ?_) h
  simpa using hI key w e hw

def RowsWithin (v : Value) (c : Cells) : Prop :=
  ∀ items, .list items ∈ v.parts → 4 * items.length ≤ c.length

lemma rowsWithin_list (h : 4 * items.length ≤ c.length) (hitems : ∀ v ∈ items, RowsWithin v c) :
    RowsWithin (.list items) c := by
  intro row hrow
  rw [Value.parts_list] at hrow
  rcases mem_cons.1 hrow with heq | hrow
  · cases heq
    exact h
  · obtain ⟨v, hv, hrow⟩ := mem_flatMap.1 hrow
    exact hitems v hv row hrow

lemma rowsWithin_object (h : ∀ x ∈ vs, RowsWithin x.2 c) : RowsWithin (.object key vs) c := by
  intro row hrow
  rw [Value.parts_object] at hrow
  rcases mem_cons.1 hrow with heq | hrow
  · cases heq
  · obtain ⟨x, hx, hrow⟩ := mem_flatMap.1 hrow
    exact h x hx row hrow

lemma RowsWithin.mono {e : Cells} (h : RowsWithin v c) (hle : c.length ≤ e.length) :
    RowsWithin v e :=
  fun row hrow => (h row hrow).trans hle

lemma rowsWithin_of_items (h : ∀ v c, FormLaid I R item v c → RowsWithin v c)
    (hitems : ItemsLaid I R item items c) : ∀ v ∈ items, RowsWithin v c := by
  induction items generalizing c with
  | nil => simp
  | cons v rest ih =>
    cases hitems with
    | cons hv hrest =>
      refine forall_mem_cons.2 ⟨(h v _ hv).mono (by simp), fun w hw => ?_⟩
      exact (ih hrest w hw).mono (by simp)

lemma rowsWithin_of_fields (h : ∀ x ∈ fields, ∀ v c, FormLaid I R x.2 v c → RowsWithin v c)
    (hfields : FieldsLaid I R fields vs c) : ∀ x ∈ vs, RowsWithin x.2 c := by
  induction hfields with
  | nil => simp
  | cons hv _ ih =>
    refine forall_mem_cons.2 ⟨(h _ (.head _) _ _ hv).mono (by simp), fun x hx => ?_⟩
    exact (ih (fun y hy => h y (.tail _ hy)) x hx).mono (by simp)

lemma rowsWithin_of_form (hI : ∀ key w e, I key w e → 4 ≤ e.length ∧ RowsWithin w e)
    (hfilled : form.Filled) (h : FormLaid I R form v c) : RowsWithin v c := by
  have hword : ∀ {item : Form}, item.Filled → ∀ w e, FormLaid I R item w e → 4 * 1 ≤ e.length :=
    fun hitem w e hw => word_of_form (fun key u d hu => (hI key u d hu).1) hitem hw
  induction form generalizing v c with
  | scalar b =>
    cases h with
    | scalar h => cases h <;> simp [RowsWithin, Value.parts]
  | enum m =>
    cases h with
    | enum => simp [RowsWithin, Value.parts]
  | cls m =>
    cases h with
    | cls h => exact (hI _ _ _ h).2
  | length bound => cases h
  | fixedOpaque n =>
    cases h with
    | fixedOpaque => simp [RowsWithin, Value.parts]
  | varOpaque bound =>
    cases h with
    | varOpaque => simp [RowsWithin, Value.parts]
  | string bound =>
    cases h with
    | string => simp [RowsWithin, Value.parts]
  | flag => cases h
  | optional item ih =>
    cases h with
    | absent => simp [RowsWithin, Value.parts]
    | present _ h => exact (ih hfilled h).mono (by simp)
  | fixedArray n item ih =>
    cases h with
    | fixedArray _ h =>
      refine rowsWithin_list ?_ (rowsWithin_of_items (fun v c hv => ih hfilled.2 hv) h)
      simpa using sum_of_items (f := fun _ => 1) (hword hfilled.2) h
  | array bound item ih =>
    cases h with
    | @array _ _ items e _ h =>
      have hitems := sum_of_items (f := fun _ => 1) (hword (show item.Filled from hfilled)) h
      have hrows := rowsWithin_list (by simpa using hitems)
        (rowsWithin_of_items (fun v c hv => ih hfilled hv) h)
      exact hrows.mono (by simp)

end

namespace Schema

variable {s : Schema} {R : UInt64 → Nat → Prop}

lemma Filled.fields_filled (h : s.Filled) (hfields : s.fields? name = some fields) :
    fields ≠ [] ∧ ∀ x ∈ fields, x.2.Filled := by
  cases ht : s.find? name with
  | none => simp [fields?, ht] at hfields
  | some t =>
    have hmem := (mem_of_find? ht).1
    have hrows := h.rows t hmem
    have hsome := h.fields t hmem
    obtain ⟨d, _, _, _, _⟩ := t
    cases d with
    | enum e | union u => simp [fields?, ht] at hfields
    | struct d =>
      simp only [fields?, ht, Option.some.injEq] at hfields
      subst hfields
      refine ⟨?_, fun x hx => ?_⟩
      · simpa [fieldsOf, StructType.plan] using hsome d rfl
      · simp only [fieldsOf, StructType.plan, map_map, mem_map] at hx
        obtain ⟨f, hf, rfl⟩ := hx
        exact s.form_filled _ (hrows f hf)
    | typedef d =>
      simp only [fields?, ht, Option.some.injEq] at hfields
      subst hfields
      refine ⟨cons_ne_nil _ _, fun x hx => ?_⟩
      rw [mem_singleton.1 hx]
      exact s.form_filled _ (hrows d.decl (.head _))

lemma Filled.payload_filled (h : s.Filled) {p : UnionPlan} (hplan : s.plan? name = some p)
    {a : ArmPlan} (ha : a ∈ p.arms) : ∀ x ∈ s.payload a, x.2.Filled := by
  cases ht : s.find? name with
  | none => simp [plan?, ht] at hplan
  | some t =>
    have hrows := h.rows t (mem_of_find? ht).1
    obtain ⟨d, _, _, _, _⟩ := t
    cases d with
    | union u =>
      simp only [plan?, ht] at hplan
      intro x hx
      obtain ⟨field, -, rfl⟩ := mem_map.1 hx
      exact s.form_filled _ (hrows a.decl (.tail _ (decl_mem_of_arm hplan ha)))
    | _ => simp [plan?, ht] at hplan

lemma Numeric.filled {shape : Shape} (h : s.Numeric shape) : (s.formOf shape).Filled := by
  refine s.form_filled _ fun hfixed => ?_
  cases h <;> cases hfixed

/-- The bytes of an instance pay for the instances of a type in it, and four more are left where it can
be held in place by such an instance. -/
def Paid (rank : String → Nat) (name : String) (key : ClassKey) (v : Value) (c : Cells) : Prop :=
  4 * v.instances name ≤ c.length ∧
    ∃ other, key = .type other ∧ (rank other < rank name → 4 * (v.instances name + 1) ≤ c.length)

lemma paid_object {rank : String → Nat} {other : String} (hkey : key.reader = .type other)
    (h : 4 * (vs.map fun x => x.2.instances name).sum ≤ c.length) (hspare : rank other ≤ rank name →
      4 * ((vs.map fun x => x.2.instances name).sum + 1) ≤ c.length) :
    Paid rank name (.type other) (.object key vs) c := by
  rw [Paid, Value.instances_object, hkey]
  by_cases hname : other = name
  · subst hname
    rw [if_pos rfl]
    exact ⟨hspare le_rfl, other, rfl, fun hlt => absurd hlt (lt_irrefl _)⟩
  · rw [if_neg fun heq => hname (ClassKey.type.inj heq), Nat.add_zero]
    exact ⟨h, other, rfl, fun hlt => hspare hlt.le⟩

section

variable (hs : s.Sound) {rank : String → Nat} (hrank : s.Ranked rank) (hfilled : s.Filled)

include hs hrank hfilled

lemma InstanceLaid.paid (name : String) (h : s.InstanceLaid R key v c) :
    Paid rank name key v c := by
  have hadd := additive_instances name
  have hpaid : ∀ key w e, Paid rank name key w e → 4 * w.instances name ≤ e.length :=
    fun _ _ _ hw => hw.1
  refine h.induct (fun {other fields vs c} hfields hlaid => ?_)
    fun {other p a disc k vs c d} hplan hdisc _ ha hlaid => ?_
  · obtain ⟨hsome, hforms⟩ := hfilled.fields_filled hfields
    refine paid_object rfl (sum_of_fields (fun x _ w e hw => paid_of_form hadd hpaid hw) hlaid) ?_
    intro hle
    -- each field leaves four bytes
    have hspare : 4 * (vs.map fun x => x.2.instances name + 1).sum ≤ c.length := by
      refine sum_of_fields (f := fun w => w.instances name + 1) (fun x hx w e hw => ?_) hlaid
      refine spare_of_form hadd hpaid (hforms x hx) (fun key hheld u d hu => ?_) hw
      obtain ⟨-, held, rfl, hspare⟩ := hu
      exact hspare ((hrank.fields other fields hfields x hx held hheld).trans_le hle)
    have hlength := hlaid.length_pos hsome
    rw [sum_map_add, map_const', sum_replicate, smul_eq_mul, mul_one] at hspare
    omega
  · have hnumeric := (hs.plans other p hplan).2
    have hnone : ∀ key, (s.formOf p.disc).held = some key → ∀ w e, Paid rank name key w e →
        4 * (w.instances name + 1) ≤ e.length := by
      simp [hnumeric.held]
    have hsum := sum_of_fields (fun x _ w e hw => paid_of_form hadd hpaid hw) hlaid
    have hspare := spare_of_form hadd hpaid hnumeric.filled hnone hdisc
    have htotal : 4 * (((vs ++ [(p.discField, disc)]).map fun x => x.2.instances name).sum + 1) ≤
        (c ++ d).length := by
      rw [map_append, sum_append, map_singleton, sum_singleton, length_append]
      dsimp only
      omega
    exact paid_object rfl (by omega) fun _ => htotal

omit hrank in
lemma InstanceLaid.rowsWithin (h : s.InstanceLaid R key v c) : 4 ≤ c.length ∧ RowsWithin v c := by
  let P : ClassKey → Value → Cells → Prop := fun _ v c => 4 ≤ c.length ∧ RowsWithin v c
  have hword : ∀ key w e, P key w e → 4 ≤ e.length := fun _ _ _ hw => hw.1
  have hrows : ∀ key w e, P key w e → 4 ≤ e.length ∧ RowsWithin w e := fun _ _ _ hw => hw
  refine h.induct (P := P) (fun {name fields vs c} hfields hlaid => ?_)
    fun {name p a disc k vs c d} hplan hdisc _ ha hlaid => ?_
  · obtain ⟨hsome, hforms⟩ := hfilled.fields_filled hfields
    have hlength := hlaid.length_pos hsome
    have hsum := sum_of_fields (f := fun _ => 1) (fun x hx w e hw => word_of_form hword (hforms x hx) hw)
      hlaid
    rw [map_const', sum_replicate, smul_eq_mul, mul_one] at hsum
    refine ⟨by omega, rowsWithin_object ?_⟩
    exact rowsWithin_of_fields (fun x hx w e hw => rowsWithin_of_form hrows (hforms x hx) hw) hlaid
  · have hnumeric := (hs.plans name p hplan).2.filled
    have hforms := hfilled.payload_filled hplan (UnionPlan.mem_of_select? ha)
    have hdiscWord := word_of_form hword hnumeric hdisc
    have hdiscRows := rowsWithin_of_form hrows hnumeric hdisc
    have hpayload := rowsWithin_of_fields
      (fun x hx w e hw => rowsWithin_of_form hrows (hforms x hx) hw) hlaid
    refine ⟨?_, rowsWithin_object fun x hx => ?_⟩
    · rw [length_append]
      omega
    · rcases mem_append.1 hx with hx | hx
      · exact (hpayload x hx).mono (by simp)
      · rw [mem_singleton.1 hx]
        exact hdiscRows.mono (by simp)

end

end Schema

lemma Module.decodeAs_cases {type : Value} {strict : Option Bool} {data : List UInt8}
    {rest : List UInt8} (h : m.decodeAs type strict data = .ok (v, rest)) :
    (∃ key, m.decodeEnum key data = .ok (v, rest)) ∨
      ∃ key strict, m.decodeInstance strict key data = .ok (v, rest) := by
  cases type with
  | member name variant n => exact .inl ⟨_, h⟩
  | cls key =>
    by_cases hkey : key.isEnum
    · rw [decodeAs, if_pos hkey] at h
      exact .inl ⟨key, h⟩
    · rw [decodeAs, if_neg hkey] at h
      obtain ⟨strict, -, h⟩ := bind_ok h
      obtain ⟨found, hfound, h⟩ := bind_ok h
      have heq : found = (v, rest) := by
        dsimp only at h
        split at h
        · obtain ⟨_, -, h⟩ := bind_ok h
          exact Except.ok.inj h
        · obtain ⟨_, -, h⟩ := bind_ok h
          exact Except.ok.inj h
        · exact Except.ok.inj h
      exact .inr ⟨key, strict, heq ▸ hfound⟩
  | _ => cases h

/-- A module takes four bytes at least for each thing that it reads, whatever its names stand for. -/
structure Module.Frugal (m : Module) : Prop where
  /-- An instance of a class, wherever it stands. -/
  unpack : ∀ strict n key i v j, 0 ≤ i.offset → m.unpack strict n key i = (.ok v, j) →
    j.rest.length + 4 ≤ i.rest.length
  /-- What is decoded by a type. -/
  decode : ∀ type strict data v rest, m.decodeAs type strict data = .ok (v, rest) →
    rest.length + 4 ≤ data.length
  /-- The items of a row that a class reads. -/
  rows : ∀ strict n key b form i items j, m.body? key = some b → form ∈ b.forms → form.isRow = true →
    0 ≤ i.offset → form.read (m.decoderFor strict n) i = (.ok (.list items), j) →
    j.rest.length + 4 * items.length ≤ i.rest.length
  /-- The nodes that a class reads that links to itself. -/
  nodes : ∀ strict n key c limit i found j, m.body? key = some (.chain c) → 0 ≤ i.offset →
    heads (m.decoderFor strict n) c limit [] i = (.ok found, j) →
    j.rest.length + 4 * found.length ≤ i.rest.length

lemma Module.frugal_of_filled (h : ∀ key b, m.body? key = some b → b.Filled) : m.Frugal := by
  have hd : ∀ strict n key,
      Pays (m.decoderFor strict n).strict ((m.decoderFor strict n).unpack key) fun _ => 1 :=
    fun strict n key => .unpack h strict n key
  refine ⟨fun strict n key i v j hi hrun => ?_, fun type strict data v rest hdecode => ?_, ?_, ?_⟩
  · exact (Pays.unpack h strict n key).run hi hrun
  · rcases Module.decodeAs_cases hdecode with ⟨key, hfound⟩ | ⟨key, strict, hfound⟩
    · unfold decodeEnum at hfound
      split at hfound
      · cases hfound
      · rename_i e _
        split at hfound
        · rename_i hrun
          cases hfound
          have hpays : Pays false (Read.enum e) fun _ => 1 := .enum e
          exact hpays.run le_rfl hrun
        · cases hfound
    · unfold decodeInstance at hfound
      split at hfound
      · rename_i hrun
        cases hfound
        exact (Pays.unpack h strict _ key).run le_rfl hrun
      · cases hfound
  · intro strict n key b form i items j hb hform hrow hi hrun
    exact (Pays.read_row (hd strict n) ((h key b hb).forms form hform) hrow).run hi hrun
  · intro strict n key c limit i found j hc hi hrun
    have hbefore := (Body.forall_chain.1 (h key _ hc).forms).1
    have hpays : Pays strict (heads (m.decoderFor strict n) c limit []) List.length :=
      (Pays.heads (hd strict n) hbefore limit []).mono fun cells found hfound => hfound.2
    exact hpays.run hi hrun

/-- What is decoded is not larger than its bytes allow. Where no row of a fixed length is empty, a module
takes four bytes at least for each instance, for each item of a row and for each node of a list. Under
unambiguous names a value of any type holds no row that is longer than a fourth of the bytes it was
decoded from, and no more instances of one type than that, which are the nodes of its lists. -/
theorem decoded_within_taken {filename source : String} {accepted : Accepted} {c : Config} {m : Module}
    (h : (compile filename source).outcome = .ok accepted)
    (hload : Module.load accepted.schema c = .ok m) (hrows : accepted.schema.NoEmptyRows) :
    m.Frugal ∧
    (accepted.schema.Unambiguous → ∀ t ∈ accepted.schema.types, ∀ strict data v rest,
      m.decodeType t.name strict data = .ok (v, rest) →
      (∀ items, .list items ∈ v.parts → rest.length + 4 * items.length ≤ data.length) ∧
      ∀ name, rest.length + 4 * v.instances name ≤ data.length) := by
  obtain ⟨spec, hs⟩ := exists_schema_of_compile h
  have hgen : Generates spec c accepted.schema m := ⟨hs, hload⟩
  have hfilled := filled_of_compile h hrows
  refine ⟨Module.frugal_of_filled (hgen.filled_bodies hfilled), ?_⟩
  intro hnames t ht strict data v rest hdecode
  obtain ⟨lib, -, hm⟩ := hgen.faithful hnames
  have hsound := hgen.sound
  obtain ⟨rank, hrank⟩ := hgen.ranked
  rw [hgen.decodeType_eq hnames ht] at hdecode
  obtain ⟨cells, taken, hlaid, hfits, rfl, -⟩ := hm.laid_of_decodeAs (hsound.find?_name ht) hsound
    (R := fun _ _ => True) (fun _ _ _ => trivial) hdecode
    (Value.allFloats_of_forall (fun _ => trivial) v)
  have hform : (accepted.schema.formNamed t.name).Filled := by
    rw [Schema.formNamed, Schema.formOf]
    exact accepted.schema.form_filled _ (by rintro ⟨⟩)
  have hwithin := rowsWithin_of_form
    (fun key w e hw => Schema.InstanceLaid.rowsWithin hsound hfilled hw) hform hlaid
  have hlength := hfits.length_eq
  rw [length_append]
  refine ⟨fun items hitems => ?_, fun name => ?_⟩
  · have hrow := hwithin items hitems
    omega
  · have hpaid := paid_of_form (additive_instances name)
      (fun key w e hw => (Schema.InstanceLaid.paid hsound hrank hfilled name hw).1) hlaid
    omega

namespace Pairs

def text : String := "struct node { int pair[2]; node *next; };"

def spec : Ast.Specification :=
  let decl name base arity size : Ast.Declaration := ⟨none, name, ⟨none, base, arity, size⟩, none⟩
  let two : Ast.Value := .literal none 2 "2"
  ⟨none, [
    .struct ⟨none, "node", [decl "pair" (.builtin .int) .fixed (some two),
      decl "next" (.named "node") .optional none], none⟩]⟩

def schema : Schema := (analyze spec).schema.getD ⟨[], []⟩

def loaded : Module := (Module.load schema {}).toOption.getD {}

/-- Two nodes, the second behind the flag of the first. -/
def bytes : List UInt8 :=
  [0, 0, 0, 1, 0, 0, 0, 2, 0, 0, 0, 1, 0, 0, 0, 3, 0, 0, 0, 4, 0, 0, 0, 0]

lemma exists_accepted : ∃ accepted, (compile "pairs.x" text).outcome = .ok accepted ∧
    accepted.schema = schema := by
  have hschema : (compile "pairs.x" text).outcome.toOption.map (·.schema) = some schema := by
    decide +kernel
  exact exists_ok_of_toOption hschema

end Pairs

/-- Two nodes are decoded, and they and their rows are within their bytes. -/
theorem decoded_within_taken_pairs : Pairs.loaded.Frugal ∧
    ∃ v, Pairs.loaded.decodeType "node" true Pairs.bytes = .ok (v, []) ∧ v.instances "node" = 2 ∧
      (∀ items, .list items ∈ v.parts → 4 * items.length ≤ Pairs.bytes.length) ∧
      ∀ name, 4 * v.instances name ≤ Pairs.bytes.length := by
  obtain ⟨accepted, houtcome, hschema⟩ := Pairs.exists_accepted
  have hnames : Pairs.schema.Unambiguous := by decide +kernel
  have hrows : Pairs.schema.NoEmptyRows := by
    unfold Schema.NoEmptyRows
    decide +kernel
  have hnode : "node" ∈ Pairs.schema.types.map (·.name) := by decide +kernel
  have hfound : (Pairs.loaded.decodeType "node" true Pairs.bytes).toOption.map
      (fun r => (r.1.instances "node", r.2)) = some (2, []) := by
    decide +kernel
  have hload : Module.load Pairs.schema {} = .ok Pairs.loaded := Module.load_eq_getD (by decide +kernel)
  rw [← hschema] at hnames hrows hnode hload
  obtain ⟨hfrugal, hwithin⟩ := decoded_within_taken houtcome hload hrows
  refine ⟨hfrugal, ?_⟩
  obtain ⟨t, ht, hname⟩ := mem_map.1 hnode
  obtain ⟨⟨v, rest⟩, hdecode, hfound⟩ := exists_ok_of_toOption hfound
  obtain ⟨hcount, rfl⟩ := Prod.mk.inj hfound
  have hbounds := hwithin hnames t ht true Pairs.bytes v [] (by rw [hname, hdecode])
  simp only [length_nil, Nat.zero_add] at hbounds
  exact ⟨v, hdecode, hcount, hbounds.1, hbounds.2⟩

end Xdr
