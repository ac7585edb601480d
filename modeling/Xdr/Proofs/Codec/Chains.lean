import Xdr.Module
import Xdr.Proofs.Schema.Sound

/-!
# Faithful modules and links

A loaded module is faithful when each name in it stands for what the schema means by it: then the
bodies of its classes are those that the schema gives them, a constructor keeps what it is given, and
an attribute gives what the instance holds.
-/

namespace Xdr

open Naming

namespace Schema

def slotOf (s : Schema) (lib : Imports.Support) (name : String) (d : Shape) : Slot :=
  ⟨name, name, s.formOf d, s.share lib d⟩

def slotsOf (s : Schema) (lib : Imports.Support) (fields : List (String × Decl)) : List Slot :=
  fields.map fun f => s.slotOf lib f.1 f.2.toShape

def chainBodyOf (s : Schema) (lib : Imports.Support) (c : Chain) : ChainBody :=
  { before := s.slotsOf lib c.before
    link := c.link
    linkShown := c.link
    behind := s.slotsOf lib c.behind
    wrappers := c.wrappers.map fun name => (globalName name, s.meant name) }

end Schema

def UnionPlan.labelValue (p : UnionPlan) (n : Int) : Value :=
  match p.enum.bind fun e => (e.variant? n).map (e, ·) with
  | some (e, variant) => .member e.name variant n
  | none => if p.disc.base = .builtin .bool then .bool (n != 0) else .int n

namespace Schema

def branchOf (s : Schema) (name : String) (p : UnionPlan) (a : ArmPlan) : Branch :=
  { labels := a.labels.map fun n => .ok (p.labelValue n)
    target := .ok (.cls (.arm name a.attr))
    payload := a.payload?.map fun _ => s.formOf a.decl.toShape }

def unionBodyOf (s : Schema) (name : String) (p : UnionPlan) : UnionBody :=
  { name
    disc := s.formOf p.disc
    discSize := p.discSize
    branches := (p.arms.filter (!·.isDefault)).map (s.branchOf name p)
    fallback := (p.arms.find? (·.isDefault)).map (s.branchOf name p) }

def armBodyOf (s : Schema) (lib : Imports.Support) (p : UnionPlan) (a : ArmPlan) : ArmBody :=
  { disc := s.slotOf lib p.discField p.disc
    discSize := p.discSize
    payload := a.payload?.map fun name => s.slotOf lib name a.decl.toShape
    isDefault := a.isDefault }

def bodyOf (s : Schema) (lib : Imports.Support) : Definition → Option Body
  | .enum _ => none
  | .struct d =>
    match s.chain? d with
    | none => some (.record (s.slotsOf lib d.plan))
    | some c => some (.chain (s.chainBodyOf lib c))
  | .typedef d => some (.record [s.slotOf lib "value" d.decl.toShape])
  | .union u => (s.unionPlan? u).map fun p => .union (s.unionBodyOf u.name p)

end Schema

/-- The class makes instances with the given fields from as many arguments, and an instance gives its
fields when it is asked for them. -/
structure Module.Keeps (m : Module) (key : ClassKey) (names : List String) : Prop where
  construct : ∀ args : List Value, args.length = names.length →
    m.construct key args [] = .ok (.object key (names.zip args))
  attr : ∀ fields : List (String × Value), fields.map (·.1) = names → ∀ f ∈ fields,
    m.attr (.object key fields) f.1 = .ok f.2
  reachable : ∀ fields operation, m.reachable (.object key fields) operation = .ok ()
  compares : ∀ fields, Equality.comparesFields m (.object key fields) = true

structure Faithful (s : Schema) (lib : Imports.Support) (m : Module) : Prop where
  ranks : m.ranks = s.types.length + 1
  reverse : m.canReverse = .ok ()
  unspoilt : ∀ v name, m.isSpoilt v name = false
  enum : ∀ name t e, s.find? name = some t → t.definition = .enum e →
    m.enum? name = some ⟨e.name, e.variants, []⟩
  body : ∀ name, m.body? (.type name) = (s.find? name).bind fun t => s.bodyOf lib t.definition
  bodied : ∀ name t, s.find? name = some t → (∀ e, t.definition ≠ .enum e) →
    ∃ b, s.bodyOf lib t.definition = some b
  size : ∀ name t, s.find? name = some t → (∀ e, t.definition ≠ .enum e) →
    m.size? (.type name) = t.size.bytes?
  readable : ∀ name, (m.head? (.type name)).all (·.isReadable) = true
  record : ∀ name fields, s.fields? name = some fields → m.Keeps (.type name) (fields.map (·.1)) ∧
    m.kind? (.type name) ≠ some .union ∧ m.kind? (.type name) ≠ some .arm
  union : ∀ name p, s.plan? name = some p → m.kind? (.type name) = some .union
  arm : ∀ name p, s.plan? name = some p → ∀ a ∈ p.arms,
    m.Keeps (.arm name a.attr) ((s.payload a).map (·.1) ++ [p.discField])
  armBody : ∀ name p, s.plan? name = some p → ∀ a ∈ p.arms,
    m.body? (.arm name a.attr) = some (.arm (s.armBodyOf lib p a))
  armSize : ∀ name t p, s.find? name = some t → s.plan? name = some p → ∀ a ∈ p.arms,
    m.size? (.arm name a.attr) = t.size.bytes?
  cases : ∀ name p, s.plan? name = some p → ∀ a ∈ p.arms,
    (m.head? (.arm name a.attr)).bind (·.cases) = some (p.cases a)
  check : ∀ name p, s.plan? name = some p → ∀ a ∈ p.arms,
    "_check_discriminant" ∉ (s.payload a).map (·.1) ++ [p.discField] ∧
    ∀ fields : List (String × Value), fields.lookup "_check_discriminant" = none →
      m.attr (.object (.arm name a.attr) fields) "_check_discriminant" = .ok (.thing "function")

variable {s : Schema} {lib : Imports.Support} {m : Module}

namespace Faithful

variable (hm : Faithful s lib m)

include hm

lemma truth (v : Value) (h : ∀ key fields, v ≠ .object key fields) : m.truth v = .ok v.truth := by
  cases v with
  | object key fields => exact absurd rfl (h key fields)
  | _ => simp [Globals.truth, hm.unspoilt]

lemma equal_numbers {a b : Value} {x y : Int} (ha : a.wholeNumber? = some x)
    (hb : b.wholeNumber? = some y) : m.equal a b = .ok (.bool (decide (x = y))) := by
  have hnumber : ∀ {v : Value} {n : Int}, v.wholeNumber? = some n →
      (∃ k, v = .int k) ∨ (∃ t, v = .bool t) ∨ ∃ e w k, v = .member e w k := by
    intro v n hv
    cases v <;> simp_all [Value.wholeNumber?, Value.integer?]
  have hrefused : Equality.isRefused m a b = false := by simp [Equality.isRefused, hm.unspoilt]
  have hplain : Equality.plain a b = decide (x = y) := by
    rcases hnumber ha with ⟨i, rfl⟩ | ⟨i, rfl⟩ | ⟨_, _, i, rfl⟩ <;>
      rcases hnumber hb with ⟨j, rfl⟩ | ⟨j, rfl⟩ | ⟨_, _, j, rfl⟩ <;>
      simp only [Equality.plain, ha, hb]
  unfold Module.equal
  rcases hnumber ha with ⟨i, rfl⟩ | ⟨i, rfl⟩ | ⟨_, _, i, rfl⟩ <;>
    rcases hnumber hb with ⟨j, rfl⟩ | ⟨j, rfl⟩ | ⟨_, _, j, rfl⟩ <;>
    simp [Module.equalAt, hrefused, hplain]

lemma conduct_regular : m.conduct.Regular where
  lacks := hm.unspoilt
  equals n b := by
    have hequal : m.equal (.int n) (.bool b) = .ok (.bool (decide (n = if b then 1 else 0))) :=
      hm.equal_numbers rfl rfl
    have htruth := hm.truth (.bool (decide (n = if b then 1 else 0))) (by simp)
    show m.equalsInteger n (.bool b) = _
    rw [Module.equalsInteger, hequal]
    exact htruth.trans (by simp only [Value.truth, eq_comm])
  truth b := hm.truth (.bool b) (by simp)
  variant e variant n := by simp [Module.conduct, Module.variantOf]; rfl

lemma hashable_number {v : Value} {k : Int} (h : v.wholeNumber? = some k) (n : Nat) :
    m.hashable (n + 1) v = .ok () := by
  cases v <;> simp_all [Value.wholeNumber?, Value.integer?, Module.hashable, hm.unspoilt]

end Faithful

/-! ## Structs that link to themselves -/

open List

variable {f fields g : List (String × Form)} {vs : Fields} {c : Cells}
  {name : String} {v : Value} {wrappers : List String} {t : TypeInfo} {key : ClassKey}
  {d : TypedefType} {form : Form} {final shape : Shape}

section

variable {T : ClassKey → Value → Prop} {F D : UInt64 → Prop} {I : ClassKey → Value → Cells → Prop}
  {R : UInt64 → Nat → Prop}

lemma fieldsTyped_append_iff :
    FieldsTyped T F D (f ++ g) vs ↔
      ∃ us ws, vs = us ++ ws ∧ FieldsTyped T F D f us ∧ FieldsTyped T F D g ws := by
  constructor
  · intro h
    induction f generalizing vs with
    | nil => exact ⟨[], vs, rfl, .nil, h⟩
    | cons entry f ih =>
      cases h with
      | cons hv hrest =>
        obtain ⟨us, ws, rfl, hus, hws⟩ := ih hrest
        exact ⟨_ :: us, ws, rfl, .cons hv hus, hws⟩
  · rintro ⟨us, ws, rfl, hus, hws⟩
    induction hus with
    | nil => exact hws
    | cons hv _ ih => exact .cons hv ih

lemma fieldsLaid_append_iff :
    FieldsLaid I R (f ++ g) vs c ↔ ∃ us ws a b, vs = us ++ ws ∧ c = a ++ b ∧
      FieldsLaid I R f us a ∧ FieldsLaid I R g ws b := by
  constructor
  · intro h
    induction f generalizing vs c with
    | nil => exact ⟨[], vs, [], c, rfl, rfl, .nil, h⟩
    | cons entry f ih =>
      cases h with
      | cons hv hrest =>
        obtain ⟨us, ws, a, b, rfl, rfl, hus, hws⟩ := ih hrest
        exact ⟨_ :: us, ws, _ ++ a, b, rfl, (append_assoc ..).symm, .cons hv hus, hws⟩
  · rintro ⟨us, ws, a, b, rfl, rfl, hus, hws⟩
    induction hus with
    | nil => exact hws
    | cons hv _ ih =>
      rw [append_assoc]
      exact .cons hv ih

lemma FieldsLaid.names (h : FieldsLaid I R f vs c) : vs.map (·.1) = f.map (·.1) := by
  induction h with
  | nil => rfl
  | cons _ _ ih => rw [map_cons, map_cons, ih]

lemma FieldsTyped.names (h : FieldsTyped T F D f vs) : vs.map (·.1) = f.map (·.1) := by
  induction h with
  | nil => rfl
  | cons _ _ ih => rw [map_cons, map_cons, ih]

lemma FieldsTyped.exists_form (h : FieldsTyped T F D f vs) :
    ∀ g ∈ vs, ∃ form, FormTyped T F D form g.2 := by
  induction h with
  | nil => simp
  | cons hv _ ih => exact forall_mem_cons.2 ⟨⟨_, hv⟩, ih⟩

lemma FieldsLaid.exists_form (h : FieldsLaid I R f vs c) :
    ∀ g ∈ vs, ∃ form d, FormLaid I R form g.2 d := by
  induction h with
  | nil => simp
  | cons hv _ ih => exact forall_mem_cons.2 ⟨⟨_, _, hv⟩, ih⟩

lemma fieldsLaid_singleton_iff :
    FieldsLaid I R [(name, form)] vs c ↔ ∃ v, vs = [(name, v)] ∧ FormLaid I R form v c := by
  constructor
  · intro h
    cases h with
    | cons hv hrest =>
      cases hrest
      exact ⟨_, rfl, by rwa [append_nil]⟩
  · rintro ⟨v, rfl, hv⟩
    rw [← append_nil c]
    exact .cons hv .nil

lemma fieldsTyped_singleton_iff :
    FieldsTyped T F D [(name, form)] vs ↔ ∃ v, vs = [(name, v)] ∧ FormTyped T F D form v := by
  constructor
  · intro h
    cases h with
    | cons hv hrest =>
      cases hrest
      exact ⟨_, rfl, hv⟩
  · rintro ⟨v, rfl, hv⟩
    exact .cons hv .nil

end

namespace Schema

variable {F D : UInt64 → Prop} {R : UInt64 → Nat → Prop}

lemma plan?_eq_none_of_fields? (h : s.fields? name = some fields) : s.plan? name = none := by
  unfold fields? at h
  unfold plan?
  split at h <;> simp_all

lemma instanceLaid_record_iff (hfields : s.fields? name = some fields) :
    s.InstanceLaid R (.type name) v c ↔
      ∃ vs, v = .object (.type name) vs ∧ s.LaysAll R fields vs c := by
  constructor
  · intro h
    cases h with
    | record hother h =>
      rw [hfields] at hother
      cases hother
      exact ⟨_, rfl, h⟩
    | union hplan =>
      rw [plan?_eq_none_of_fields? hfields] at hplan
      cases hplan
  · rintro ⟨vs, rfl, h⟩
    exact .record hfields h

lemma hasInstance_record_iff (hfields : s.fields? name = some fields) :
    s.HasInstance F D (.type name) v ↔
      ∃ vs, v = .object (.type name) vs ∧ s.TypesAll F D fields vs := by
  constructor
  · intro h
    cases h with
    | record hother h =>
      rw [hfields] at hother
      cases hother
      exact ⟨_, rfl, h⟩
    | union hplan =>
      rw [plan?_eq_none_of_fields? hfields] at hplan
      cases hplan
  · rintro ⟨vs, rfl, h⟩
    exact .record hfields h

end Schema

def wrapped (wrappers : List String) (v : Value) : Value :=
  wrappers.foldr (fun name inner => .object (.type name) [("value", inner)]) v

/-- The fields of a node that links to another. -/
abbrev Chain.node (c : Chain) (us : Fields) (w : Value) (ws : Fields) : Fields :=
  us ++ (c.link, wrapped c.wrappers w) :: ws

lemma wrapped_cons (name : String) (wrappers : List String) (v : Value) :
    wrapped (name :: wrappers) v = .object (.type name) [("value", wrapped wrappers v)] := rfl

lemma viewed_wrapped (wrappers : List String) (v : Value) :
    (wrapped wrappers v).viewed = wrapped wrappers v.viewed := by
  induction wrappers with
  | nil => rfl
  | cons name rest ih => rw [wrapped_cons, Value.viewed_object, map_singleton, ih, wrapped_cons]

lemma depth_le_wrapped (wrappers : List String) (v : Value) :
    v.depth ≤ (wrapped wrappers v).depth := by
  induction wrappers with
  | nil => exact le_rfl
  | cons name rest ih =>
    have hlt : (wrapped rest v).depth < (wrapped (name :: rest) v).depth :=
      Value.depth_lt_object _ (mem_singleton_self ("value", wrapped rest v))
    exact ih.trans hlt.le

lemma allFloats_wrapped (P : UInt64 → Prop) (wrappers : List String) (v : Value) :
    (wrapped wrappers v).AllFloats P ↔ v.AllFloats P := by
  induction wrappers with
  | nil => rfl
  | cons name rest ih =>
    rw [wrapped_cons, Value.allFloats_object]
    simpa using ih

lemma Chain.depth_lt_node (c : Chain) (name : String) (us : Fields) (w : Value) (ws : Fields) :
    w.depth < (Value.object (.type name) (c.node us w ws)).depth := by
  have hlink : (c.link, wrapped c.wrappers w) ∈ c.node us w ws := by simp
  exact (depth_le_wrapped c.wrappers w).trans_lt (Value.depth_lt_object _ hlink)

namespace Schema

variable {F D : UInt64 → Prop} {R : UInt64 → Nat → Prop}

lemma formNamed_of_typedef (ht : s.find? name = some t) (hd : t.definition = .typedef d) :
    s.formNamed name = .cls (.cls (.type name)) ∧ s.meant name = .cls (.type name) ∧
      s.fields? name = some [("value", s.formOf d.decl.toShape)] := by
  refine ⟨formNamed_of_not_enum fun u hu e he => ?_, ?_, ?_⟩
  · rw [ht] at hu
    cases hu
    rw [hd] at he
    cases he
  all_goals
    obtain ⟨_, _, _, _, _⟩ := t
    cases hd
  · simp only [meant, ht]
  · simp only [fields?, ht]

inductive Wraps (s : Schema) : Shape → List String → Shape → Prop
  | refl (shape : Shape) : Wraps s shape [] shape
  | cons {name : String} {t : TypeInfo} {d : TypedefType} {length : Option Nat} {inner : List String}
      {final : Shape} (ht : s.find? name = some t) (hd : t.definition = .typedef d)
      (h : Wraps s d.decl.toShape inner final) :
      Wraps s ⟨.named name, .scalar, length⟩ (name :: inner) final

namespace Wraps

variable (h : s.Wraps shape wrappers final)

include h

lemma forall_wrappers : ∀ name ∈ wrappers, s.meant name = .cls (.type name) ∧
    ∃ form, s.fields? name = some [("value", form)] := by
  induction h with
  | refl => simp
  | cons ht hd _ ih =>
    obtain ⟨-, hmeant, hfields⟩ := formNamed_of_typedef ht hd
    exact forall_mem_cons.2 ⟨⟨hmeant, _, hfields⟩, ih⟩

lemma typed_iff (v : Value) : s.Types F D (s.formOf shape) v ↔
    ∃ w, v = wrapped wrappers w ∧ s.Types F D (s.formOf final) w := by
  induction h generalizing v with
  | refl => simp [wrapped]
  | @cons name _ _ length _ _ ht hd _ ih =>
    obtain ⟨hnamed, -, hfields⟩ := formNamed_of_typedef ht hd
    have hform : s.formOf ⟨.named name, .scalar, length⟩ = .cls (.cls (.type name)) := hnamed
    rw [hform]
    constructor
    · intro hv
      cases hv with
      | cls hv =>
        obtain ⟨vs, rfl, hvs⟩ := (hasInstance_record_iff hfields).1 hv
        obtain ⟨u, rfl, hu⟩ := fieldsTyped_singleton_iff.1 hvs
        obtain ⟨w, rfl, hw⟩ := (ih u).1 hu
        exact ⟨w, rfl, hw⟩
    · rintro ⟨w, rfl, hw⟩
      refine .cls ((hasInstance_record_iff hfields).2 ⟨_, rfl, fieldsTyped_singleton_iff.2 ?_⟩)
      exact ⟨_, rfl, (ih _).2 ⟨w, rfl, hw⟩⟩

lemma laid_iff (v : Value) (c : Cells) : s.Lays R (s.formOf shape) v c ↔
    ∃ w, v = wrapped wrappers w ∧ s.Lays R (s.formOf final) w c := by
  induction h generalizing v with
  | refl => simp [wrapped]
  | @cons name _ _ length _ _ ht hd _ ih =>
    obtain ⟨hnamed, -, hfields⟩ := formNamed_of_typedef ht hd
    have hform : s.formOf ⟨.named name, .scalar, length⟩ = .cls (.cls (.type name)) := hnamed
    rw [hform]
    constructor
    · intro hv
      cases hv with
      | cls hv =>
        obtain ⟨vs, rfl, hvs⟩ := (instanceLaid_record_iff hfields).1 hv
        obtain ⟨u, rfl, hu⟩ := fieldsLaid_singleton_iff.1 hvs
        obtain ⟨w, rfl, hw⟩ := (ih u).1 hu
        exact ⟨w, rfl, hw⟩
    · rintro ⟨w, rfl, hw⟩
      refine .cls ((instanceLaid_record_iff hfields).2 ⟨_, rfl, fieldsLaid_singleton_iff.2 ?_⟩)
      exact ⟨_, rfl, (ih _).2 ⟨w, rfl, hw⟩⟩

end Wraps

lemma unwrap_wraps {n : Nat} (h : s.unwrap n shape = (wrappers, final)) :
    s.Wraps shape wrappers final := by
  induction n generalizing shape wrappers with
  | zero =>
    cases h
    exact .refl _
  | succ n ih =>
    unfold unwrap at h
    split at h
    · rename_i name harity hbase
      split at h
      · rename_i d _ _ _ _ hfind
        cases h
        obtain ⟨base, arity, length⟩ := shape
        cases harity
        cases hbase
        exact .cons hfind rfl (ih rfl)
      · cases h
        exact .refl _
    · cases h
      exact .refl _

lemma chain?_spec {t : StructType} {c : Chain} (h : s.chain? t = some c) :
    ∃ decl : Decl, t.plan = c.before ++ (c.link, decl) :: c.behind ∧
      s.selfLink? t.name decl.toShape = some c.wrappers := by
  obtain ⟨l, hl, rfl⟩ := Option.map_eq_some_iff.1 h
  have hmem := mem_of_getLast? hl
  obtain ⟨⟨decl, i⟩, hi, hlink⟩ := mem_filterMap.1 hmem
  obtain ⟨wrappers, hself, rfl⟩ := Option.map_eq_some_iff.1 hlink
  have hfield : t.fields[i]? = some decl := mem_zipIdx_iff_getElem?.1 hi
  have hplan : t.plan[i]? = some (Naming.memberName (decl.name.getD "None"), decl) := by
    rw [StructType.plan, List.getElem?_map, hfield, Option.map_some]
  refine ⟨decl, ?_, hself⟩
  obtain ⟨hlt, hget⟩ := List.getElem?_eq_some_iff.1 hplan
  simp only [Chain.ofLink, hplan, Option.map_some, Option.getD_some]
  rw [← hget, getElem_cons_drop, take_append_drop]

structure Linked (s : Schema) (name : String) (c : Chain) (link : Shape) : Prop where
  plan : ∃ t d decl, s.find? name = some t ∧ t.definition = .struct d ∧ s.chain? d = some c ∧
    d.plan = c.before ++ (c.link, decl) :: c.behind ∧ decl.toShape = link
  wraps : ∃ bound, s.Wraps link c.wrappers ⟨.named name, .optional, bound⟩

lemma exists_linked {d : StructType} {c : Chain} (ht : s.find? name = some t)
    (hd : t.definition = .struct d) (hc : s.chain? d = some c) : ∃ link, s.Linked name c link := by
  obtain ⟨decl, hplan, hself⟩ := chain?_spec hc
  have hname : d.name = name := by
    rw [← (mem_of_find? ht).2, TypeInfo.name, hd]
    rfl
  refine ⟨decl.toShape, ⟨t, d, decl, ht, hd, hc, hplan, rfl⟩, ?_⟩
  unfold selfLink? at hself
  cases hunwrap : s.unwrap (s.types.length + 1) decl.toShape with
  | mk wrappers final =>
    simp only [hunwrap] at hself
    split_ifs at hself with hfinal
    cases hself
    obtain ⟨base, arity, bound⟩ := final
    simp only [Bool.and_eq_true, decide_eq_true_eq] at hfinal
    obtain ⟨rfl, rfl⟩ := hfinal
    exact ⟨bound, hname ▸ unwrap_wraps hunwrap⟩

namespace Linked

variable {c : Chain} {link : Shape} (h : s.Linked name c link)

include h

lemma fields?_eq : s.fields? name =
    some (s.fieldsOf c.before ++ (c.link, s.formOf link) :: s.fieldsOf c.behind) := by
  obtain ⟨⟨_, _, _, _, _⟩, d, decl, ht, hd, -, hplan, rfl⟩ := h.plan
  cases hd
  simp only [fields?, ht, hplan, fieldsOf, map_append, map_cons]

lemma formOf_next (bound : Option Nat) :
    s.formOf ⟨.named name, .optional, bound⟩ = .optional (.cls (.cls (.type name))) := by
  refine congrArg Form.optional (formNamed_of_not_enum ?_)
  rintro ⟨_, _, _, _, _⟩ ht e rfl
  have hfields := h.fields?_eq
  simp [fields?, ht] at hfields

lemma laid_iff (v : Value) (cells : Cells) :
    s.InstanceLaid R (.type name) v cells ↔
      ∃ us w ws a l b, v = .object (.type name) (c.node us w ws) ∧ cells = a ++ (l ++ b) ∧
        s.LaysAll R (s.fieldsOf c.before) us a ∧
        s.Lays R (.optional (.cls (.cls (.type name)))) w l ∧
        s.LaysAll R (s.fieldsOf c.behind) ws b := by
  obtain ⟨bound, hwraps⟩ := h.wraps
  have hnext := h.formOf_next bound
  rw [instanceLaid_record_iff h.fields?_eq]
  constructor
  · rintro ⟨vs, rfl, hvs⟩
    obtain ⟨us, rest, a, r, rfl, rfl, hus, hrest⟩ := fieldsLaid_append_iff.1 hvs
    cases hrest with
    | cons hlink hws =>
      obtain ⟨w, rfl, hw⟩ := (hwraps.laid_iff _ _).1 hlink
      rw [hnext] at hw
      exact ⟨us, w, _, a, _, _, rfl, rfl, hus, hw, hws⟩
  · rintro ⟨us, w, ws, a, l, b, rfl, rfl, hus, hw, hws⟩
    rw [← hnext] at hw
    refine ⟨_, rfl, fieldsLaid_append_iff.2 ⟨us, _, a, l ++ b, rfl, rfl, hus, ?_⟩⟩
    exact .cons ((hwraps.laid_iff _ _).2 ⟨w, rfl, hw⟩) hws

lemma typed_iff (v : Value) :
    s.HasInstance F D (.type name) v ↔
      ∃ us w ws, v = .object (.type name) (c.node us w ws) ∧
        s.TypesAll F D (s.fieldsOf c.before) us ∧
        s.Types F D (.optional (.cls (.cls (.type name)))) w ∧
        s.TypesAll F D (s.fieldsOf c.behind) ws := by
  obtain ⟨bound, hwraps⟩ := h.wraps
  have hnext := h.formOf_next bound
  rw [hasInstance_record_iff h.fields?_eq]
  constructor
  · rintro ⟨vs, rfl, hvs⟩
    obtain ⟨us, rest, rfl, hus, hrest⟩ := fieldsTyped_append_iff.1 hvs
    cases hrest with
    | cons hlink hws =>
      obtain ⟨w, rfl, hw⟩ := (hwraps.typed_iff _).1 hlink
      rw [hnext] at hw
      exact ⟨us, w, _, rfl, hus, hw, hws⟩
  · rintro ⟨us, w, ws, rfl, hus, hw, hws⟩
    rw [← hnext] at hw
    refine ⟨_, rfl, fieldsTyped_append_iff.2 ⟨us, _, rfl, hus, ?_⟩⟩
    exact .cons ((hwraps.typed_iff _).2 ⟨w, rfl, hw⟩) hws

end Linked

lemma InstanceLaid.isNull (h : s.InstanceLaid R key v c) : v.isNull = false := by
  cases h <;> rfl

lemma HasInstance.isNull (h : s.HasInstance F D key v) : v.isNull = false := by
  cases h <;> rfl

lemma node_of_optional (h : s.Types F D (.optional (.cls (.cls key))) v) :
    v = .null ∨ s.HasInstance F D key v := by
  cases h with
  | absent => exact .inl rfl
  | present h =>
    cases h with
    | cls h => exact .inr h

inductive NodeLaid (s : Schema) (R : UInt64 → Nat → Prop) (name : String) : Value → Cells → Prop
  | none : NodeLaid s R name .null []
  | some {v : Value} {c : Cells} (h : s.InstanceLaid R (.type name) v c) : NodeLaid s R name v c

lemma optional_laid_iff {l : Cells} :
    s.Lays R (.optional (.cls (.cls (.type name)))) v l ↔
      ∃ c, NodeLaid s R name v c ∧ l = .word (!v.isNull).toNat ++ c := by
  constructor
  · intro h
    cases h with
    | absent => exact ⟨[], .none, rfl⟩
    | present hnull h =>
      cases h with
      | cls h => exact ⟨_, .some h, by rw [hnull]; rfl⟩
  · rintro ⟨c, hnode, rfl⟩
    cases hnode with
    | none => exact .absent
    | some h =>
      rw [h.isNull]
      exact .present h.isNull (.cls h)

end Schema

namespace Unpack

/-- A list of at most so many nodes, one within the other: the fields before the link, the nodes behind
it, and the fields behind the link. -/
def node (d : Decoder) (key : ClassKey) (c : ChainBody) : Nat → Read Value
  | 0 => throw .tooDeep
  | n + 1 => do
    let head ← values d c.before
    let more ← Read.flag
    let next ← (if more then node d key c n else pure .null)
    let link ← settle (wrap d c next)
    let tail ← values d c.behind
    settle (d.make key (head ++ link :: tail))

lemma heads_nodes (d : Decoder) (key : ClassKey) (c : ChainBody) (n : Nat)
    (done : List (List Value)) :
    (heads d c n done >>= fun found => nodes d key c found .null) =
      node d key c n >>= fun v => nodes d key c done v := by
  induction n generalizing done with
  | zero => rfl
  | succ n ih =>
    rw [heads, node]
    simp only [bind_assoc]
    refine congrArg (values d c.before >>= ·) (funext fun head => ?_)
    refine congrArg (Read.flag >>= ·) (funext fun more => ?_)
    cases more with
    | false => simp only [Bool.false_eq_true, ite_false, pure_bind, nodes]
    | true => simp only [ite_true, ih (head :: done), nodes]

end Unpack

lemma slotsOf_fields (decls : List (String × Decl)) :
    (s.slotsOf lib decls).map (fun x => (x.attr, x.form)) = s.fieldsOf decls := by
  simp [Schema.slotsOf, Schema.slotOf, Schema.fieldsOf]

namespace Faithful

variable (hm : Faithful s lib m)

include hm

lemma unwrap_wrapped
    (hwrappers : ∀ name ∈ wrappers, ∃ form, s.fields? name = some [("value", form)]) (v : Value) :
    wrappers.foldlM (fun v _ => m.attr v "value") (wrapped wrappers v) = .ok v := by
  induction wrappers with
  | nil => rfl
  | cons name rest ih =>
    obtain ⟨form, hfields⟩ := hwrappers name (by simp)
    have hattr := (hm.record name _ hfields).1.attr [("value", wrapped rest v)] rfl _
      (.head _)
    rw [wrapped_cons, foldlM_cons, hattr]
    exact ih fun other hother => hwrappers other (.tail name hother)

lemma next_node {c : Chain} {link : Shape} (h : s.Linked name c link) {us ws : Fields} {w : Value}
    (hus : us.map (·.1) = (s.fieldsOf c.before).map (·.1))
    (hws : ws.map (·.1) = (s.fieldsOf c.behind).map (·.1)) :
    m.next (s.chainBodyOf lib c) (.object (.type name) (c.node us w ws)) = .ok w := by
  have hattr := (hm.record name _ h.fields?_eq).1.attr (c.node us w ws)
    (by simp [hus, hws]) (c.link, wrapped c.wrappers w) (by simp)
  obtain ⟨bound, hwraps⟩ := h.wraps
  have hunwrap := hm.unwrap_wrapped (fun other hother => (hwraps.forall_wrappers other hother).2) w
  simp only [Module.next, Schema.chainBodyOf, hattr, foldlM_map]
  exact hunwrap

lemma wrap_node {c : Chain} {link : Shape} (h : s.Linked name c link) {d : Decoder}
    (hd : d.make = fun key args => m.construct key args []) (v : Value) :
    Unpack.wrap d (s.chainBodyOf lib c) v = .ok (wrapped c.wrappers v) := by
  obtain ⟨bound, hwraps⟩ := h.wraps
  have hwrappers := hwraps.forall_wrappers
  unfold Unpack.wrap
  simp only [Schema.chainBodyOf]
  generalize c.wrappers = wrappers at hwrappers
  split
  · rename_i f hfound
    obtain ⟨w, hw, hnothing⟩ := exists_of_findSome?_eq_some hfound
    obtain ⟨other, hother, rfl⟩ := mem_map.1 hw
    simp [(hwrappers other hother).1] at hnothing
  · rename_i hfound
    clear hfound
    induction wrappers with
    | nil => rfl
    | cons other rest ih =>
      obtain ⟨hmeant, form, hfields⟩ := hwrappers other (by simp)
      have hmake := (hm.record other _ hfields).1.construct [wrapped rest v] rfl
      have hrest := ih fun name hname => hwrappers name (.tail other hname)
      rw [map_cons, foldrM_cons, hrest]
      simp only [Mention.call, hmeant, hd]
      exact hmake

lemma chain_eq_node (d : Decoder) (n : Nat) (key : ClassKey) (c : ChainBody) :
    Unpack.chain m d n key c = Unpack.node d key c n := by
  have hloop := Unpack.heads_nodes d key c n []
  unfold Unpack.chain
  rw [hm.reverse]
  exact hloop.trans (bind_pure _)

/-! ## Bodies of classes -/

variable {k : Int} {p : UnionPlan} {disc : Value}

lemma body_cases {fields : List (String × Form)} (hfields : s.fields? name = some fields) :
    (∃ decls, fields = s.fieldsOf decls ∧
      m.body? (.type name) = some (.record (s.slotsOf lib decls))) ∨
    ∃ c link, m.body? (.type name) = some (.chain (s.chainBodyOf lib c)) ∧ s.Linked name c link := by
  have hbody := hm.body name
  unfold Schema.fields? at hfields
  split at hfields
  · rename_i d _ _ _ _ hfind
    cases hfields
    rw [hfind, Option.bind_some] at hbody
    cases hchain : s.chain? d with
    | none => exact .inl ⟨d.plan, rfl, by simpa only [Schema.bodyOf, hchain] using hbody⟩
    | some c =>
      obtain ⟨link, hlinked⟩ := Schema.exists_linked hfind rfl hchain
      exact .inr ⟨c, link, by simpa only [Schema.bodyOf, hchain] using hbody, hlinked⟩
  · rename_i d _ _ _ _ hfind
    cases hfields
    rw [hfind, Option.bind_some] at hbody
    exact .inl ⟨[("value", d.decl)], rfl, hbody⟩
  · cases hfields

omit hm in
lemma armBodyOf_slots (lib : Imports.Support) (p : UnionPlan) (a : ArmPlan) :
    ((s.armBodyOf lib p a).disc :: (s.armBodyOf lib p a).payload.toList).map
      (fun x => (x.attr, x.form)) = (p.discField, s.formOf p.disc) :: s.payload a := by
  simp only [Schema.armBodyOf, Schema.slotOf, Schema.payload, map_cons]
  cases a.payload? <;> rfl

lemma body_union (hplan : s.plan? name = some p) :
    m.body? (.type name) = some (.union (s.unionBodyOf name p)) := by
  have hbody := hm.body name
  unfold Schema.plan? at hplan
  split at hplan
  · rename_i u _ _ _ _ hfind
    have hname : u.name = name := (Schema.mem_of_find? hfind).2
    rw [hbody, hfind, Option.bind_some, Schema.bodyOf, hplan, hname]
    rfl
  · cases hplan

lemma body_trichotomy (name : String) :
    (∃ fields, s.fields? name = some fields) ∨ (∃ p, s.plan? name = some p) ∨
      m.body? (.type name) = none := by
  have hbody := hm.body name
  unfold Schema.fields? Schema.plan?
  cases hfind : s.find? name with
  | none => exact .inr (.inr (by rw [hbody, hfind]; rfl))
  | some t =>
    rw [hfind, Option.bind_some] at hbody
    obtain ⟨d, _, _, _, _⟩ := t
    cases d with
    | enum e => exact .inr (.inr hbody)
    | struct d | typedef d => exact .inl ⟨_, rfl⟩
    | union u =>
      cases hplan : s.unionPlan? u with
      | none => exact .inr (.inr (by rw [hbody, Schema.bodyOf, hplan, Option.map_none]))
      | some p => exact .inr (.inl ⟨p, hplan⟩)

omit hm in
lemma isNumber_eq {v : Value} (hk : v.wholeNumber? = some k) : v.isNumber = fun n => k == n := by
  funext n
  cases v <;> simp_all [Value.isNumber, Value.wholeNumber?, Value.integer?] <;> rfl

omit hm in
lemma any_isNumber (hk : disc.wholeNumber? = some k) (cases : List Int) :
    cases.any disc.isNumber = cases.contains k := by
  rw [isNumber_eq hk, contains_eq_any_beq]

lemma check_eq {a : ArmPlan} (hp : s.plan? name = some p) (hsound : p.Sound) (ha : a ∈ p.arms)
    (e : Encoder) {fields : Fields}
    (hfields : fields.map (·.1) = (s.payload a).map (·.1) ++ [p.discField])
    (hk : disc.wholeNumber? = some k) :
    ∃ reason, Pack.check m e (.arm name a.attr) (s.armBodyOf lib p a)
        (.object (.arm name a.attr) fields) disc =
      if p.select? k = some a then pure () else Write.refuse e.toConduct disc reason := by
  obtain ⟨hfree, hcheck⟩ := hm.check name p hp a ha
  have hlookup : fields.lookup "_check_discriminant" = none := by
    rw [lookup_eq_none_iff]
    intro f hf
    rw [← hfields] at hfree
    exact bne_iff_ne.2 fun heq => hfree (heq ▸ mem_map_of_mem hf)
  have hmethod : (Value.thing "function").typeName = "function" := rfl
  have hattr := hcheck fields hlookup
  simp only [Pack.check, hattr, hlookup, Option.isNone_none, hmethod, decide_true, Bool.and_self,
    ite_true, Pack.checkCases, hm.cases name p hp a ha, hm.hashable_number hk, any_isNumber hk,
    hsound.select?_eq_some_iff ha, Schema.armBodyOf]
  cases a.isDefault <;> cases (p.cases a).contains k
  · exact ⟨_, rfl⟩
  · exact ⟨fun shown => .wrongArm shown (.arm name a.attr), rfl⟩
  · exact ⟨fun shown => .explicitArm shown (.arm name a.attr), rfl⟩
  · exact ⟨_, rfl⟩

end Faithful

end Xdr
