import Xdr.Proofs.Loops.Writing
import Xdr.Proofs.Schema.Rearranging

/-!
# Shapes of values

A value has the shape of a type when each part of it is of the kind that stands there: an integer of
whatever size, a list of whatever length, an arm with whatever discriminant.
-/

namespace Xdr

open List

variable {v : Value} {fields : List (String × Form)} {vs : Fields} {name : String}
  {n : Int} {key : ClassKey}

/-- What is asked of the numbers and of the lengths in a value. -/
structure Limits where
  /-- Of an integer of a builtin type. -/
  number : Builtin → Int → Prop
  /-- Of a number that stands for a variant of an enum. -/
  variant : EnumType → Int → Prop
  /-- Of how many bytes or elements there are where their number is declared. -/
  count : Int → Nat → Prop
  /-- Of how many bytes or elements there are where at most a bound is declared. -/
  length : Option Int → Nat → Prop
  /-- Of the number of the discriminant of an arm. -/
  arm : UnionPlan → ArmPlan → Int → Prop

namespace Limits

def free : Limits where
  number _ _ := True
  variant _ _ := True
  count _ _ := True
  length _ _ := True
  arm _ _ _ := True

/-- What can be represented on the wire: integers in the range of their type, the numbers of an enum,
lengths that are declared, and discriminants of their arm. -/
def wire : Limits where
  number b n := ∀ range ∈ b.range?, range.1 ≤ n ∧ n ≤ range.2
  variant e n := n ∈ e.values
  count declared n := (n : Int) = declared
  length := IsLength
  arm := UnionPlan.Admits

/-- Numbers and lengths that can be put into a message. -/
def legible : Limits where
  number _ n := Number.isWritable n
  variant _ n := Number.isWritable n
  count _ _ := True
  length _ n := Number.isWritable n
  arm _ _ _ := True

end Limits

/-- A value that is an integer: a plain one or a variant of an enum. -/
inductive Schema.Integral (s : Schema) : Value → Int → Prop
  | int (n : Int) : Integral s (.int n) n
  | variant {t : TypeInfo} {e : EnumType} {variant : String} {n : Int}
      (ht : s.find? e.name = some t) (he : t.definition = .enum e) (h : (variant, n) ∈ e.variants) :
      Integral s (.member e.name variant n) n

/-- The values in the shape of a form, when `T` holds of the instances of each class. -/
inductive FormShaped (s : Schema) (L : Limits) (T : ClassKey → Value → Prop) : Form → Value → Prop
  | integer {b : Builtin} {v : Value} {n : Int} (hb : b ≠ .bool) (hrange : b.range?.isSome)
      (hv : s.Integral v n) (hn : L.number b n) : FormShaped s L T (.scalar b) v
  | bool (b : Bool) : FormShaped s L T (.scalar .bool) (.bool b)
  | enum {t : TypeInfo} {e : EnumType} {v : Value} {n : Int} (ht : s.find? e.name = some t)
      (he : t.definition = .enum e) (hv : s.Integral v n) (hn : L.variant e n) :
      FormShaped s L T (.enum (.enum ⟨e.name, e.variants, []⟩)) v
  | cls {key : ClassKey} {v : Value} (h : T key v) : FormShaped s L T (.cls (.cls key)) v
  | fixedOpaque {n : Int} {bs : List UInt8} {storage : Storage} (hstorage : storage.isPlain = true)
      (hn : L.count n bs.length) : FormShaped s L T (.fixedOpaque n) (.bytes bs storage)
  | varOpaque {bound : Option Int} {bs : List UInt8} {storage : Storage}
      (hstorage : storage.isPlain = true) (hn : L.length bound bs.length) : FormShaped s L T (.varOpaque bound) (.bytes bs storage)
  | string {bound : Option Int} {text : String} (hn : L.length bound (Wire.utf8 text).length) :
      FormShaped s L T (.string bound) (.str text)
  | absent {item : Form} : FormShaped s L T (.optional item) .null
  | present {item : Form} {v : Value} (hv : v.isNull = false) (h : FormShaped s L T item v) :
      FormShaped s L T (.optional item) v
  | fixedArray {n : Int} {item : Form} {items : List Value} (hn : L.count n items.length)
      (h : ∀ v ∈ items, FormShaped s L T item v) : FormShaped s L T (.fixedArray n item) (.list items)
  | array {bound : Option Int} {item : Form} {items : List Value} (hn : L.length bound items.length)
      (h : ∀ v ∈ items, FormShaped s L T item v) : FormShaped s L T (.array bound item) (.list items)

lemma Schema.Integral.integer? {s : Schema} (h : s.Integral v n) : v.integer? = some n := by
  cases h <;> rfl

lemma Schema.Integral.wholeNumber? {s : Schema} (h : s.Integral v n) :
    v.wholeNumber? = some n := by
  cases h <;> rfl

section

variable {s : Schema} {L : Limits} {T : ClassKey → Value → Prop}

lemma formShaped_integer_iff {b : Builtin} (hb : b ≠ .bool) (hrange : b.range?.isSome)
    (hv : s.Integral v n) : FormShaped s L T (.scalar b) v ↔ L.number b n := by
  constructor
  · intro h
    cases h with
    | integer _ _ hother hn =>
      cases hv.integer?.symm.trans hother.integer?
      exact hn
    | bool => exact absurd rfl hb
  · exact .integer hb hrange hv

lemma formShaped_enum_iff {t : TypeInfo} {e : EnumType} (ht : s.find? e.name = some t)
    (he : t.definition = .enum e) (hv : s.Integral v n) :
    FormShaped s L T (.enum (.enum ⟨e.name, e.variants, []⟩)) v ↔ L.variant e n := by
  constructor
  · intro h
    generalize hform : Form.enum (.enum ⟨e.name, e.variants, []⟩) = form at h
    cases h with
    | @enum t' e' _ _ ht' he' hother hn =>
      have hname : e.name = e'.name := congrArg EnumClass.name (Mention.enum.inj (Form.enum.inj hform))
      rw [← hname] at ht'
      cases ht.symm.trans ht'
      cases he.symm.trans he'
      cases hv.integer?.symm.trans hother.integer?
      exact hn
    | _ => cases hform
  · exact .enum ht he hv

end

/-- Fields with values in the shapes of their forms. -/
inductive FieldsShaped (s : Schema) (L : Limits) (T : ClassKey → Value → Prop) :
    List (String × Form) → List (String × Value) → Prop
  | nil : FieldsShaped s L T [] []
  | cons {name : String} {form : Form} {fields : List (String × Form)} {v : Value}
      {vs : List (String × Value)} (h : FormShaped s L T form v)
      (hrest : FieldsShaped s L T fields vs) :
      FieldsShaped s L T ((name, form) :: fields) ((name, v) :: vs)

lemma FieldsShaped.names {s : Schema} {L : Limits} {T : ClassKey → Value → Prop}
    (h : FieldsShaped s L T fields vs) : vs.map (·.1) = fields.map (·.1) := by
  induction h with
  | nil => rfl
  | cons _ _ ih => rw [map_cons, map_cons, ih]

lemma FieldsShaped.exists_form {s : Schema} {L : Limits} {T : ClassKey → Value → Prop}
    (h : FieldsShaped s L T fields vs) : ∀ f ∈ vs, ∃ form, FormShaped s L T form f.2 := by
  induction h with
  | nil => simp
  | cons hv _ ih => exact forall_mem_cons.2 ⟨⟨_, hv⟩, ih⟩

namespace Schema

/-- The instances in the shape of a type that is no enum. An arm may have any discriminant of the
right shape that the limits admit. -/
inductive InstanceShaped (s : Schema) (L : Limits) : ClassKey → Value → Prop
  | record {name : String} {fields : List (String × Form)} {vs : List (String × Value)}
      (hfields : s.fields? name = some fields)
      (h : FieldsShaped s L (InstanceShaped s L) fields vs) :
      InstanceShaped s L (.type name) (.object (.type name) vs)
  | union {name : String} {p : UnionPlan} {a : ArmPlan} {disc : Value} {k : Int}
      {vs : List (String × Value)} (hplan : s.plan? name = some p) (ha : a ∈ p.arms)
      (hdisc : FormShaped s L (InstanceShaped s L) (s.formOf p.disc) disc)
      (hk : disc.wholeNumber? = some k) (harm : L.arm p a k)
      (h : FieldsShaped s L (InstanceShaped s L) (s.payload a) vs) :
      InstanceShaped s L (.type name) (.object (.arm name a.attr) (vs ++ [(p.discField, disc)]))

/-- The values in the shape of a type of the schema. -/
inductive Shaped (s : Schema) (L : Limits) : String → Value → Prop
  | variant {t : TypeInfo} {e : EnumType} {variant : String} {n : Int}
      (ht : s.find? e.name = some t) (he : t.definition = .enum e) (h : (variant, n) ∈ e.variants) :
      Shaped s L e.name (.member e.name variant n)
  | ofClass {name : String} {v : Value} (h : s.InstanceShaped L (.type name) v) : Shaped s L name v

variable {s : Schema} {L : Limits}

lemma instanceShaped_record_iff (hfields : s.fields? name = some fields) :
    s.InstanceShaped L (.type name) (.object (.type name) vs) ↔
      FieldsShaped s L (s.InstanceShaped L) fields vs := by
  constructor
  · intro h
    cases h with
    | record hother h =>
      cases hfields.symm.trans hother
      exact h
  · exact .record hfields

lemma instanceShaped_arm_iff {p : UnionPlan} (hplan : s.plan? name = some p) {a : ArmPlan}
    (ha : a ∈ p.arms) {disc : Value} {k : Int} (hk : disc.wholeNumber? = some k) :
    s.InstanceShaped L (.type name) (.object (.arm name a.attr) (vs ++ [(p.discField, disc)])) ↔
      L.arm p a k ∧ FormShaped s L (s.InstanceShaped L) (s.formOf p.disc) disc ∧
        FieldsShaped s L (s.InstanceShaped L) (s.payload a) vs := by
  constructor
  · intro h
    generalize hvalue : Value.object (.arm name a.attr) (vs ++ [(p.discField, disc)]) = v at h
    cases h with
    | record => cases hvalue
    | @union _ q b other l us hother hb hdisc hl harm h =>
      cases hplan.symm.trans hother
      obtain ⟨hkey, hfields⟩ := Value.object.inj hvalue
      -- arms of one name are the same arm
      have hattr : a.attr = b.attr := (ClassKey.arm.inj hkey).2
      obtain rfl := inj_on_of_nodup_map (plan?_distinct hplan).attrs ha hb hattr
      obtain ⟨rfl, hlast⟩ := append_inj' hfields rfl
      cases hlast
      cases hk.symm.trans hl
      exact ⟨harm, hdisc, h⟩
  · rintro ⟨harm, hdisc, h⟩
    exact .union hplan ha hdisc hk harm h

lemma InstanceShaped.exists_object (h : s.InstanceShaped L key v) :
    ∃ key vs, v = .object key vs := by
  cases h <;> exact ⟨_, _, rfl⟩

lemma shaped_object_iff :
    s.Shaped L name (.object key vs) ↔ s.InstanceShaped L (.type name) (.object key vs) := by
  refine ⟨fun h => ?_, .ofClass⟩
  generalize hv : Value.object key vs = v at h
  cases h with
  | variant => cases hv
  | ofClass h => exact h

lemma Wraps.shaped {shape final : Shape} {wrappers : List String}
    (h : s.Wraps shape wrappers final) (hv : FormShaped s L (s.InstanceShaped L) (s.formOf shape) v) :
    ∃ w, v = wrapped wrappers w ∧ FormShaped s L (s.InstanceShaped L) (s.formOf final) w := by
  induction h generalizing v with
  | refl shape => exact ⟨v, rfl, hv⟩
  | @cons name t d length inner final ht hd _ ih =>
    obtain ⟨hnamed, -, hfields⟩ := formNamed_of_typedef ht hd
    have hform : s.formOf ⟨.named name, .scalar, length⟩ = .cls (.cls (.type name)) := hnamed
    rw [hform] at hv
    cases hv with
    | cls hv =>
      cases hv with
      | union hplan =>
        rw [plan?_eq_none_of_fields? hfields] at hplan
        cases hplan
      | record hother hvs =>
        cases hfields.symm.trans hother
        cases hvs with
        | cons hinner hnil =>
          cases hnil
          obtain ⟨w, rfl, hw⟩ := ih hinner
          exact ⟨w, rfl, hw⟩

lemma Linked.exists_node {c : Chain} {link : Shape} (h : s.Linked name c link)
    (hfields : s.fields? name = some fields) (hvs : FieldsShaped s L (s.InstanceShaped L) fields vs) :
    ∃ w : Value, w.IsNode name ∧ (c.link, wrapped c.wrappers w) ∈ vs := by
  obtain ⟨bound, hwraps⟩ := h.wraps
  have hlink : (c.link, s.formOf link) ∈ fields := by
    rw [Option.some.inj (hfields.symm.trans h.fields?_eq)]
    simp
  have hmem : ∃ v, (c.link, v) ∈ vs ∧ FormShaped s L (s.InstanceShaped L) (s.formOf link) v := by
    clear hfields
    induction hvs with
    | nil => cases hlink
    | cons hv _ ih =>
      rcases mem_cons.1 hlink with heq | hlink
      · cases heq
        exact ⟨_, .head _, hv⟩
      · obtain ⟨v, hmem, hv⟩ := ih hlink
        exact ⟨v, .tail _ hmem, hv⟩
  obtain ⟨v, hmem, hv⟩ := hmem
  obtain ⟨w, rfl, hw⟩ := hwraps.shaped hv
  refine ⟨w, ?_, hmem⟩
  rw [h.formOf_next bound] at hw
  cases hw with
  | absent => exact .inl rfl
  | present _ hw =>
    cases hw with
    | cls hw =>
      cases hw with
      | record _ _ => exact .inr ⟨_, rfl⟩
      | union hplan =>
        rw [plan?_eq_none_of_fields? h.fields?_eq] at hplan
        cases hplan

lemma built_of_shaped {form : Form} (h : FormShaped s L (s.InstanceShaped L) form v) :
    s.Built v := by
  refine built_of_forms (P := FormShaped s L (s.InstanceShaped L)) (fun {form items} h => ?_)
    (fun {form key vs} h => ?_) h
  · generalize hv : Value.list items = w at h
    induction h with
    | fixedArray _ h | array _ h => cases hv; exact fun v hv => ⟨_, h v hv⟩
    | present _ _ ih => exact ih hv
    | cls h | integer _ _ h | enum _ _ h => subst hv; cases h
    | _ => cases hv
  · generalize hv : Value.object key vs = w at h
    induction h with
    | present _ _ ih => exact ih hv
    | integer _ _ h | enum _ _ h => subst hv; cases h
    | cls h =>
      subst hv
      cases h with
      | record hfields h =>
        refine ⟨h.exists_form, .record hfields h.names fun c hc => ?_⟩
        obtain ⟨link, hlinked⟩ := exists_linked_of_chainNamed? hc
        exact hlinked.exists_node hfields h
      | union hplan ha hdisc _ _ h =>
        refine ⟨forall_mem_append.2 ⟨h.exists_form, ?_⟩, .arm hplan ha (by simp [h.names])⟩
        exact forall_mem_singleton.2 ⟨_, hdisc⟩
    | _ => cases hv

end Schema

end Xdr
