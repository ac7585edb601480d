import Xdr.Analysis.Layout
import Xdr.Proofs.Codec.Forms

/-!
# Sound schemas

What the codec relies on in a schema: names stand for one type each, enums give every number once,
and each discriminant selects at most one arm of its union.
-/

namespace Xdr

open List

variable {name : String} {t : TypeInfo} {shape : Shape} {e : EnumType} {v : Value} {k : Int}

structure UnionPlan.Sound (p : UnionPlan) : Prop where
  explicit : ∀ n, n ∈ p.explicit ↔ ∃ a ∈ p.arms, a.isDefault = false ∧ n ∈ a.labels
  labels : ∀ a ∈ p.arms, ∀ b ∈ p.arms, ∀ n, n ∈ a.labels → n ∈ b.labels → a = b
  default : ∀ a ∈ p.arms, ∀ b ∈ p.arms, a.isDefault = true → b.isDefault = true → a = b
  truths : p.disc.base = .builtin .bool → ∀ a ∈ p.arms, ∀ n ∈ a.labels, n = 0 ∨ n = 1

namespace UnionPlan

/-- An arm is for the numbers among its labels, the default arm for those that no other arm has. -/
def Admits (p : UnionPlan) (a : ArmPlan) (k : Int) : Prop :=
  if a.isDefault then ∀ b ∈ p.arms, b.isDefault = false → k ∉ b.labels else k ∈ a.labels

instance (p : UnionPlan) (a : ArmPlan) (k : Int) : Decidable (p.Admits a k) :=
  inferInstanceAs (Decidable (ite _ _ _))

variable {p : UnionPlan} {a : ArmPlan}

lemma mem_of_select? (h : p.select? k = some a) : a ∈ p.arms := by
  unfold select? at h
  split at h
  · rename_i found hfind
    cases h
    exact mem_of_find?_eq_some hfind
  · exact mem_of_find?_eq_some h

lemma Sound.select?_eq_some_iff (hp : p.Sound) (ha : a ∈ p.arms) (k : Int) :
    p.select? k = some a ↔ (p.cases a).contains k = !a.isDefault := by
  cases hfind : p.arms.find? fun b => !b.isDefault && b.labels.contains k with
  | some b =>
    -- an arm has the number as a label: it is the one that is selected
    have hb := mem_of_find?_eq_some hfind
    have hlabel := find?_some hfind
    simp only [Bool.and_eq_true, Bool.not_eq_true', contains_iff_mem] at hlabel
    simp only [select?, hfind, Option.some.injEq]
    cases hdefault : a.isDefault with
    | true =>
      have hmem : k ∈ p.explicit := (hp.explicit k).2 ⟨b, hb, hlabel⟩
      have hne : b ≠ a := fun heq => by simp [heq, hdefault] at hlabel
      simp [cases, hdefault, hne, hmem]
    | false =>
      simp only [cases, hdefault, Bool.false_eq_true, ite_false, Bool.not_false,
        contains_iff_mem]
      exact ⟨fun heq => heq ▸ hlabel.2, fun hk => hp.labels b hb a ha k hlabel.2 hk⟩
  | none =>
    have hnone : ∀ b ∈ p.arms, b.isDefault = false → k ∉ b.labels := by
      simpa using find?_eq_none.1 hfind
    simp only [select?, hfind]
    cases hdefault : a.isDefault with
    | true =>
      have hmem : k ∉ p.explicit := fun hk => by
        obtain ⟨b, hb, hexplicit, hlabel⟩ := (hp.explicit k).1 hk
        exact hnone b hb hexplicit hlabel
      simp only [cases, hdefault, ite_true, Bool.not_true, ← Bool.not_eq_true,
        contains_iff_mem, hmem, not_false_eq_true, iff_true]
      cases hother : p.arms.find? (·.isDefault) with
      | none => simpa [hdefault] using find?_eq_none.1 hother a ha
      | some b =>
        rw [hp.default b (mem_of_find?_eq_some hother) a ha (by simpa using find?_some hother)
          hdefault]
    | false =>
      simp only [cases, hdefault, Bool.false_eq_true, ite_false, Bool.not_false,
        contains_iff_mem, hnone a ha hdefault, iff_false]
      intro hother
      simpa [hdefault] using find?_some hother

lemma Sound.select?_iff_admits (hp : p.Sound) :
    p.select? k = some a ↔ a ∈ p.arms ∧ p.Admits a k := by
  have hadmits : a ∈ p.arms → (p.select? k = some a ↔ p.Admits a k) := by
    intro ha
    rw [hp.select?_eq_some_iff ha, cases, Admits]
    cases a.isDefault with
    | true =>
      simp only [ite_true, Bool.not_true, ← Bool.not_eq_true, contains_iff_mem, hp.explicit]
      exact ⟨fun hnone b hb hexplicit hk => hnone ⟨b, hb, hexplicit, hk⟩,
        fun hnone ⟨b, hb, hexplicit, hk⟩ => hnone b hb hexplicit hk⟩
    | false => simp only [Bool.false_eq_true, ite_false, Bool.not_false, contains_iff_mem]
  exact ⟨fun h => ⟨mem_of_select? h, (hadmits (mem_of_select? h)).1 h⟩,
    fun ⟨ha, h⟩ => (hadmits ha).2 h⟩

end UnionPlan

/-- How the numbers of a discriminant are stored, by its canonical type: in how many bytes, and whether
they have a sign. -/
def Base.stored : Base → Nat × Bool
  | .builtin .uint => (4, false)
  | .builtin .hyper => (8, true)
  | .builtin .uhyper => (8, false)
  | _ => (4, true)

/-- The declarations of a definition that hold a value always. -/
def Definition.plainMembers : Definition → List Decl
  | enum _ => []
  | struct s => s.fields
  | typedef t => [t.decl]
  | union u => [u.discriminant]

namespace Schema

variable {s : Schema}

/-- Every declaration is of a type that there is, and only arms of unions may hold nothing. -/
structure Closed (s : Schema) : Prop where
  named : ∀ t ∈ s.types, ∀ d ∈ t.definition.members, ∀ name, d.base = .named name →
    ∃ t', s.find? name = some t'
  quadruple : ∀ t ∈ s.types, ∀ d ∈ t.definition.members, d.base ≠ .builtin .quadruple
  void : ∀ t ∈ s.types, ∀ d ∈ t.definition.plainMembers, d.base ≠ .builtin .void

inductive Numeric (s : Schema) : Shape → Prop
  | builtin {b : Builtin} {low high : Int} (h : b.range? = some (low, high)) :
      Numeric s (.scalar (.builtin b))
  | enum {name : String} {t : TypeInfo} {e : EnumType} (ht : s.find? name = some t)
      (he : t.definition = .enum e) : Numeric s (.scalar (.named name))

structure Sound (s : Schema) : Prop where
  names : (s.types.map (·.name)).Nodup
  enums : ∀ t ∈ s.types, ∀ e, t.definition = .enum e → (e.variants.map (·.2)).Nodup
  plans : ∀ name p, s.plan? name = some p → p.Sound ∧ s.Numeric p.disc

/-- A type that holds another in place has a greater rank. -/
structure Ranked (s : Schema) (rank : String → Nat) : Prop where
  bounded : ∀ name, rank name ≤ s.types.length
  fields : ∀ name fields, s.fields? name = some fields → ∀ f ∈ fields, ∀ other,
    f.2.held = some (.type other) → rank other < rank name
  payload : ∀ name p, s.plan? name = some p → ∀ a ∈ p.arms, ∀ f ∈ s.payload a, ∀ other,
    f.2.held = some (.type other) → rank other < rank name

structure Sized (s : Schema) : Prop where
  enum : ∀ name t e, s.find? name = some t → t.definition = .enum e → t.size = .fixed 4
  struct : ∀ name t d, s.find? name = some t → t.definition = .struct d →
    t.size = .sum (d.fields.map fun f => s.sizeOf f.toShape)
  typedef : ∀ name t d, s.find? name = some t → t.definition = .typedef d →
    t.size = s.sizeOf d.decl.toShape
  discSize : ∀ name p, s.plan? name = some p → s.sizeOf p.disc = .fixed p.discSize
  union : ∀ name t p n, s.find? name = some t → s.plan? name = some p → t.size = .fixed n →
    ∀ a ∈ p.arms, ∃ k, s.sizeOf a.decl.toShape = .fixed k ∧ p.discSize + k = n

lemma mem_of_find? (h : s.find? name = some t) : t ∈ s.types ∧ t.name = name :=
  ⟨mem_of_find?_eq_some h, by simpa using find?_some h⟩

lemma Sound.find?_name (hs : s.Sound) (ht : t ∈ s.types) : s.find? t.name = some t :=
  find?_of_nodup_map hs.names ht

lemma Sound.plan?_eq (hs : s.Sound) {u : UnionType} (ht : t ∈ s.types)
    (hd : t.definition = .union u) : s.plan? t.name = s.unionPlan? u := by
  have hfind := hs.find?_name ht
  obtain ⟨_, _, _, _, _⟩ := t
  cases hd
  rw [plan?, hfind]

lemma Sound.fields?_eq (hs : s.Sound) {d : StructType} (ht : t ∈ s.types)
    (hd : t.definition = .struct d) : s.fields? t.name = some (s.fieldsOf d.plan) := by
  have hfind := hs.find?_name ht
  obtain ⟨_, _, _, _, _⟩ := t
  cases hd
  rw [fields?, hfind]

inductive FormView (s : Schema) : Shape → Form → Prop
  | fixedOpaque {length : Option Nat} :
      FormView s ⟨.builtin .opaqueBytes, .fixed, length⟩ (.fixedOpaque (length.getD 0 : Nat))
  | varOpaque {arity : Arity} {length : Option Nat} (h : arity ≠ .fixed) :
      FormView s ⟨.builtin .opaqueBytes, arity, length⟩ (.varOpaque (length.map Int.ofNat))
  | string {arity : Arity} {length : Option Nat} :
      FormView s ⟨.builtin .string, arity, length⟩ (.string (length.map Int.ofNat))
  | scalar {base : Base} {length : Option Nat} (h : base.isBytes = false) :
      FormView s ⟨base, .scalar, length⟩ (s.elementForm s.meant base)
  | optional {base : Base} {length : Option Nat} (h : base.isBytes = false) :
      FormView s ⟨base, .optional, length⟩ (.optional (s.elementForm s.meant base))
  | fixed {base : Base} {length : Option Nat} (h : base.isBytes = false) :
      FormView s ⟨base, .fixed, length⟩
        (.fixedArray (length.getD 0 : Nat) (s.elementForm s.meant base))
  | varying {base : Base} {length : Option Nat} (h : base.isBytes = false) :
      FormView s ⟨base, .varying, length⟩
        (.array (length.map Int.ofNat) (s.elementForm s.meant base))

lemma formOf_view (s : Schema) (shape : Shape) : FormView s shape (s.formOf shape) := by
  obtain ⟨base, arity, length⟩ := shape
  by_cases hbytes : base.isBytes = true
  · cases base with
    | named name => cases hbytes
    | builtin b =>
      cases b with
      | opaqueBytes =>
        cases arity with
        | fixed => exact .fixedOpaque
        | _ => exact .varOpaque (by simp)
      | string => exact .string
      | _ => cases hbytes
  · have hplain := Bool.eq_false_iff.2 hbytes
    have hform : s.formOf ⟨base, arity, length⟩ =
        match arity with
        | .scalar => s.elementForm s.meant base
        | .optional => .optional (s.elementForm s.meant base)
        | .fixed => .fixedArray (length.getD 0 : Nat) (s.elementForm s.meant base)
        | .varying => .array (length.map Int.ofNat) (s.elementForm s.meant base) := by
      cases base with
      | named name => cases arity <;> rfl
      | builtin b => cases b <;> first | exact absurd rfl hbytes | (cases arity <;> rfl)
    rw [hform]
    cases arity with
    | scalar => exact .scalar hplain
    | optional => exact .optional hplain
    | fixed => exact .fixed hplain
    | varying => exact .varying hplain

lemma meant_of_enum (ht : s.find? name = some t) (he : t.definition = .enum e) :
    s.meant name = .enum ⟨e.name, e.variants, []⟩ := by
  obtain ⟨d, _, _, _, _⟩ := t
  cases he
  simp only [meant, ht]

lemma formNamed_of_enum (ht : s.find? name = some t) (he : t.definition = .enum e) :
    s.formNamed name = .enum (.enum ⟨e.name, e.variants, []⟩) := by
  have hmeant := meant_of_enum ht he
  obtain ⟨d, _, _, _, _⟩ := t
  cases he
  simp only [formNamed, formOf, form, Shape.scalar, elementForm, ht, hmeant]

lemma formNamed_of_not_enum (h : ∀ t, s.find? name = some t → ∀ e, t.definition ≠ .enum e) :
    s.formNamed name = .cls (.cls (.type name)) := by
  have hmeant : s.meant name = .cls (.type name) := by
    unfold meant
    split
    · rename_i hfind
      exact absurd rfl (h _ hfind _)
    · rfl
  simp only [formNamed, formOf, form, Shape.scalar, elementForm]
  split
  · rename_i hfind
    exact absurd rfl (h _ hfind _)
  · rw [hmeant]

lemma Sound.formNamed_simple (hs : s.Sound) (name : String) : (s.formNamed name).Simple := by
  by_cases h : ∃ t e, s.find? name = some t ∧ t.definition = .enum e
  · obtain ⟨t, e, ht, he⟩ := h
    rw [formNamed_of_enum ht he]
    exact ⟨rfl, hs.enums t (mem_of_find? ht).1 e he⟩
  · rw [formNamed_of_not_enum fun t ht e he => h ⟨t, e, ht, he⟩]
    trivial

lemma Sound.elementForm_simple (hs : s.Sound) (base : Base) :
    (s.elementForm s.meant base).Simple := by
  cases base with
  | builtin b => trivial
  | named name => exact hs.formNamed_simple name

lemma Sound.formOf_regular (hs : s.Sound) (shape : Shape) : (s.formOf shape).Regular := by
  have hregular : ∀ {form : Form}, form.Simple → form.Regular := by
    intro form hform
    unfold Form.Simple at hform
    split at hform <;> first | exact hform | exact hform.elim
  have hsimple := hs.elementForm_simple
  have hview := formOf_view s shape
  generalize s.formOf shape = form at hview ⊢
  cases hview with
  | fixedOpaque => exact Int.natCast_nonneg _
  | varOpaque | string => trivial
  | scalar => exact hregular (hsimple _)
  | optional => exact hsimple _
  | fixed => exact ⟨Int.natCast_nonneg _, hsimple _⟩
  | varying => exact hsimple _

lemma Sound.fields_regular (hs : s.Sound) {fields : List (String × Form)}
    (h : s.fields? name = some fields) : ∀ f ∈ fields, f.2.Regular := by
  unfold fields? at h
  split at h <;> cases h
  · intro f hf
    obtain ⟨g, -, rfl⟩ := mem_map.1 hf
    exact hs.formOf_regular _
  · intro f hf
    obtain rfl := mem_singleton.1 hf
    exact hs.formOf_regular _

lemma Sound.payload_regular (hs : s.Sound) (a : ArmPlan) : ∀ f ∈ s.payload a, f.2.Regular := by
  intro f hf
  obtain ⟨name, -, rfl⟩ := mem_map.1 hf
  exact hs.formOf_regular _

lemma Numeric.form_cases (h : s.Numeric shape) :
    (∃ b low high, b.range? = some (low, high) ∧ s.formOf shape = .scalar b) ∨
      ∃ e, s.formOf shape = .enum (.enum e) := by
  cases h with
  | @builtin b low high hrange =>
    exact .inl ⟨b, low, high, hrange, by cases b <;> first | rfl | cases hrange⟩
  | enum ht he => exact .inr ⟨_, formNamed_of_enum ht he⟩

lemma Numeric.held (h : s.Numeric shape) : (s.formOf shape).held = none := by
  obtain ⟨b, low, high, -, hform⟩ | ⟨e, hform⟩ := h.form_cases
  · rw [hform]
    rfl
  · rw [hform]
    rfl

lemma Numeric.size_eq (h : s.Numeric shape)
    (henum : ∀ name t e, s.find? name = some t → t.definition = .enum e → t.size = .fixed 4) :
    s.sizeOf shape = .fixed shape.base.stored.1 := by
  cases h with
  | @builtin b low high hrange => cases b <;> first | rfl | cases hrange
  | @enum name t e ht he =>
    simp [sizeOf, Shape.sizeWith_eq, Shape.scalar, Base.isBytes, ht, henum name t e ht he, Base.stored]

lemma Numeric.exists_number (h : s.Numeric shape) {T : ClassKey → Value → Prop}
    {F D : UInt64 → Prop} (hv : FormTyped T F D (s.formOf shape) v) :
    ∃ k, v.wholeNumber? = some k := by
  obtain ⟨b, low, high, hrange, hform⟩ | ⟨e, hform⟩ := h.form_cases <;> rw [hform] at hv
  · cases hv with
    | scalar hv =>
      cases hv with
      | float | double => cases hrange
      | _ => exact ⟨_, rfl⟩
  · cases hv with
    | enum => exact ⟨_, rfl⟩

lemma Numeric.exists_number_of_laid (h : s.Numeric shape) {I : ClassKey → Value → Cells → Prop}
    {R : UInt64 → Nat → Prop} {c : Cells} (hv : FormLaid I R (s.formOf shape) v c) :
    ∃ k, v.wholeNumber? = some k := by
  obtain ⟨b, low, high, hrange, hform⟩ | ⟨e, hform⟩ := h.form_cases <;> rw [hform] at hv
  · cases hv with
    | scalar hv =>
      cases hv with
      | float | double => cases hrange
      | _ => exact ⟨_, rfl⟩
  · cases hv with
    | enum => exact ⟨_, rfl⟩

lemma Numeric.takes (h : s.Numeric shape) (d : Decoder) (strict : Bool) :
    Takes strict ((s.formOf shape).read d) fun c v =>
      FormLaid (fun _ _ _ => False) (fun _ _ => True) (s.formOf shape) v c := by
  obtain ⟨b, low, high, -, hform⟩ | ⟨e, hform⟩ := h.form_cases
  · rw [hform]
    exact (takes_scalar (fun _ _ => trivial) b).mono fun c v hv => .scalar hv
  · rw [hform]
    refine (takes_enum e).mono ?_
    rintro c v ⟨variant, n, hmem, hn, rfl, rfl⟩
    exact .enum hmem hn

end Schema

end Xdr
