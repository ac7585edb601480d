import Xdr.Proofs.Analysis.Rearranging
import Xdr.Proofs.Module.Binding

/-!
# Schemas with arms in another order

The order of the arms of a union may change the names of their classes, for a name that is taken is
changed.
-/

namespace Xdr

open List

open Ast (Specification)

variable {p : UnionPlan} {name : String} {c : Cells} {v : Value} {fields : List (String × Form)}
  {vs : Fields} {key : ClassKey} {form : Form}

namespace Definitions

variable {defs others : Definitions} (h : List.Forall₂ Definition.Rearranged defs others)
include h

lemma find?_rearrange (name : String) :
    Option.Rel Definition.Rearranged (defs.find? name) (others.find? name) := by
  unfold find?
  induction h with
  | nil => exact .none
  | @cons r t _ _ hrt _ ih =>
    rw [find?_cons, find?_cons, hrt.name_eq]
    cases decide (t.name = name) with
    | true => exact .some hrt
    | false => exact ih

lemma follow_rearrange (n : Nat) : ∀ shape, defs.follow n shape = others.follow n shape := by
  induction n with
  | zero => exact fun _ => rfl
  | succ n ih =>
    rintro ⟨base, arity, length⟩
    cases arity with
    | scalar =>
      cases base with
      | builtin b => rfl
      | named name =>
        have hfind := find?_rearrange h name
        simp only [follow]
        generalize defs.find? name = d at hfind ⊢
        generalize others.find? name = e at hfind ⊢
        cases hfind with
        | none => rfl
        | some hrt =>
          cases hrt with
          | union => rfl
          | same => rename_i d; cases d <;> first | rfl | exact ih _
    | _ => rfl

lemma canonical_rearrange (shape : Shape) : defs.canonical shape = others.canonical shape := by
  rw [canonical, canonical, h.length_eq, follow_rearrange h]

end Definitions

/-- The same is known of two types but for the order of arms. -/
structure TypeInfo.Rearranged (r t : TypeInfo) : Prop where
  definition : Definition.Rearranged r.definition t.definition
  canonical : r.canonical = t.canonical

/-- The same is known of every name but for the order of arms. -/
def Schema.Rearranged (s t : Schema) : Prop :=
  ∀ name, Option.Rel TypeInfo.Rearranged (s.find? name) (t.find? name)

lemma analyze_rearrange {spec other : Specification} (h : spec.Rearranged other) {s : Schema}
    (hs : (analyze spec).schema = some s) :
    ∃ t, (analyze other).schema = some t ∧ s.Rearranged t := by
  obtain ⟨hspec, order, hdefs, horder, rfl⟩ := schema_of_analyze hs
  obtain ⟨t, ht⟩ := exists_schema (hspec.rearrange h)
  refine ⟨t, ht, fun name => ?_⟩
  obtain ⟨-, order', hdefs', horder', rfl⟩ := schema_of_analyze ht
  have hre := hdefs.defs_rearranged hdefs' h
  have hfind := Definitions.find?_rearrange hre name
  rw [Definitions.schema_find?, Definitions.schema_find?]
  generalize hd : (resolution spec).1.find? name = d at hfind ⊢
  generalize he : (resolution other).1.find? name = e at hfind ⊢
  cases hfind with
  | none => exact .none
  | some hrt =>
    refine .some ⟨hrt, ?_⟩
    rw [Definitions.info, Definitions.info, horder.lookup_canonicals (mem_of_find?_eq_some hd),
      horder'.lookup_canonicals (mem_of_find?_eq_some he), hrt.name_eq,
      Definitions.canonical_rearrange hre]

/-- What an arm is for and what it holds, whatever it is called. -/
def ArmPlan.sense (a : ArmPlan) : List Int × Decl × Bool := (a.labels, a.decl, a.isDefault)

/-- What the arms of a union are for and what they hold, the default one last. -/
def UnionType.senses (u : UnionType) : List (List Int × Decl × Bool) :=
  u.arms.map (fun a => (a.values, a.decl, false)) ++ u.fallback.toList.map fun d => ([], d, true)

lemma Schema.unionPlan?_senses {s : Schema} {u : UnionType} (hp : s.unionPlan? u = some p) :
    p.arms.map ArmPlan.sense = u.senses := by
  obtain ⟨arms, harms, hplan⟩ := Schema.unionPlan?_arms hp
  rw [hplan, UnionType.senses, ← harms, map_append, map_map, map_map, map_map]
  rfl

namespace UnionPlan

/-- Two plans of a union that are the same but for the order and the names of the arms. -/
structure Rearranged (p q : UnionPlan) : Prop where
  disc : p.disc = q.disc
  discField : p.discField = q.discField
  senses : (p.arms.map ArmPlan.sense).Perm (q.arms.map ArmPlan.sense)

structure Distinct (p : UnionPlan) : Prop where
  attrs : (p.arms.map (·.attr)).Nodup
  labels : ∀ a ∈ p.arms, a.isDefault = false → a.labels ≠ []

variable {p q : UnionPlan} {a b : ArmPlan}

lemma Rearranged.symm (h : p.Rearranged q) : q.Rearranged p :=
  ⟨h.disc.symm, h.discField.symm, h.senses.symm⟩

lemma Rearranged.exists_arm (h : p.Rearranged q) (ha : a ∈ p.arms) :
    ∃ b ∈ q.arms, b.sense = a.sense :=
  mem_map.1 (h.senses.mem_iff.1 (mem_map_of_mem ha))

lemma Rearranged.exists_select? (h : p.Rearranged q) (hp : p.Sound) (hq : q.Sound) {k : Int}
    (ha : p.select? k = some a) : ∃ b, q.select? k = some b ∧ b.sense = a.sense := by
  obtain ⟨hmem, hadmits⟩ := hp.select?_iff_admits.1 ha
  obtain ⟨b, hb, hsense⟩ := h.exists_arm hmem
  refine ⟨b, hq.select?_iff_admits.2 ⟨hb, ?_⟩, hsense⟩
  obtain ⟨hlabels, -, hdefault⟩ : b.labels = a.labels ∧ b.decl = a.decl ∧ b.isDefault = a.isDefault := by
    simpa [ArmPlan.sense] using hsense
  unfold Admits at hadmits ⊢
  rw [hdefault, hlabels]
  split_ifs at hadmits ⊢
  · intro c hc hexplicit
    obtain ⟨d, hd, hcd⟩ := h.symm.exists_arm hc
    obtain ⟨hsame, -, hkind⟩ : d.labels = c.labels ∧ d.decl = c.decl ∧ d.isDefault = c.isDefault := by
      simpa [ArmPlan.sense] using hcd
    exact hsame ▸ hadmits d hd (hkind.trans hexplicit)
  · exact hadmits

lemma Rearranged.select?_sense (h : p.Rearranged q) (hp : p.Sound) (hq : q.Sound) (k : Int) :
    (p.select? k).map ArmPlan.sense = (q.select? k).map ArmPlan.sense := by
  cases ha : p.select? k with
  | some a =>
    obtain ⟨b, hb, hsense⟩ := h.exists_select? hp hq ha
    rw [hb, Option.map_some, Option.map_some, hsense]
  | none =>
    cases hb : q.select? k with
    | none => rfl
    | some b =>
      obtain ⟨a, ha', -⟩ := h.symm.exists_select? hq hp hb
      rw [ha] at ha'
      cases ha'

lemma Sound.eq_of_sense (hq : q.Sound) (hdistinct : q.Distinct) (ha : a ∈ q.arms) (hb : b ∈ q.arms)
    (hsense : a.sense = b.sense) : a = b := by
  obtain ⟨hlabels, -, hdefault⟩ : a.labels = b.labels ∧ a.decl = b.decl ∧ a.isDefault = b.isDefault := by
    simpa [ArmPlan.sense] using hsense
  cases hkind : b.isDefault with
  | true => exact hq.default a ha b hb (hdefault.trans hkind) hkind
  | false =>
    obtain ⟨n, hn⟩ := exists_mem_of_ne_nil _ (hdistinct.labels b hb hkind)
    exact hq.labels a ha b hb n (hlabels ▸ hn) hn

/-- The name that another plan has for the arm with the given name. -/
def counterpart (p q : UnionPlan) (attr : String) : String :=
  (((p.arms.find? (·.attr = attr)).bind fun a => q.arms.find? (·.sense = a.sense)).map (·.attr)).getD
    attr

lemma counterpart_eq (hp : p.Distinct) (hq : q.Sound) (hdistinct : q.Distinct) (ha : a ∈ p.arms)
    (hb : b ∈ q.arms) (hsense : b.sense = a.sense) : p.counterpart q a.attr = b.attr := by
  have hfind := find?_of_nodup_map hp.attrs ha
  rw [counterpart, hfind, Option.bind_some]
  cases hother : q.arms.find? (·.sense = a.sense) with
  | none => exact absurd hsense (by simpa using find?_eq_none.1 hother b hb)
  | some c =>
    have hc : c.sense = a.sense := by simpa using find?_some hother
    rw [hq.eq_of_sense hdistinct (mem_of_find?_eq_some hother) hb (hc.trans hsense.symm)]
    rfl

end UnionPlan

namespace Schema

/-- The classes of another schema for the same instances. -/
def recast (s t : Schema) : ClassKey → ClassKey
  | .arm name attr =>
    match s.plan? name, t.plan? name with
    | some p, some q => .arm name (p.counterpart q attr)
    | _, _ => .arm name attr
  | key => key

lemma plan?_distinct {s : Schema} (hp : s.plan? name = some p) : p.Distinct := by
  unfold plan? at hp
  split at hp
  · rename_i u _ _ _ _ hfind
    refine ⟨unionPlan?_attrs_nodup hp, fun a ha hdefault => ?_⟩
    obtain ⟨arms, harms, hplan⟩ := unionPlan?_arms hp
    rw [hplan, mem_append, mem_map, mem_map] at ha
    obtain ⟨x, hx, rfl⟩ | ⟨d, -, rfl⟩ := ha
    · have hlabels := labels_ne_nil hp x.2 (harms ▸ mem_map_of_mem hx)
      exact fun hnil => hlabels (map_eq_nil_iff.1 hnil)
    · cases hdefault
  · cases hp

lemma recast_arm {s t : Schema} (ht : t.Sound) {q : UnionPlan} (hp : s.plan? name = some p)
    (hq : t.plan? name = some q) {a b : ArmPlan} (ha : a ∈ p.arms) (hb : b ∈ q.arms)
    (hsense : b.sense = a.sense) : s.recast t (.arm name a.attr) = .arm name b.attr := by
  rw [recast, hp, hq]
  simp only
  rw [UnionPlan.counterpart_eq (plan?_distinct hp) (ht.plans name q hq).1 (plan?_distinct hq) ha hb
    hsense]

namespace Rearranged

variable {s t : Schema} (h : s.Rearranged t)
include h

lemma find?_cases (name : String) : (s.find? name = none ∧ t.find? name = none) ∨
    ∃ i j, s.find? name = some i ∧ t.find? name = some j ∧ i.Rearranged j := by
  have hname := h name
  generalize s.find? name = a at hname ⊢
  generalize t.find? name = b at hname ⊢
  cases hname with
  | none => exact .inl ⟨rfl, rfl⟩
  | some hab => exact .inr ⟨_, _, rfl, rfl, hab⟩

lemma symm : t.Rearranged s := by
  intro name
  obtain ⟨hs, ht⟩ | ⟨i, j, hs, ht, hij⟩ := h.find?_cases name <;> rw [hs, ht]
  · exact .none
  · exact .some ⟨hij.definition.symm, hij.canonical.symm⟩

lemma meant_eq : s.meant = t.meant := by
  funext name
  unfold meant
  obtain ⟨hs, ht⟩ | ⟨⟨d, _, _, _, _⟩, ⟨_, _, _, _, _⟩, hs, ht, hij, -⟩ := h.find?_cases name <;>
    rw [hs, ht]
  cases d <;> cases hij <;> rfl

lemma elementForm_eq : s.elementForm s.meant = t.elementForm t.meant := by
  funext base
  cases base with
  | builtin b => rfl
  | named name =>
    rw [h.meant_eq, elementForm, elementForm]
    obtain ⟨hs, ht⟩ | ⟨⟨d, _, _, _, _⟩, ⟨_, _, _, _, _⟩, hs, ht, hij, -⟩ := h.find?_cases name <;>
      rw [hs, ht]
    cases d <;> cases hij <;> rfl

lemma formOf_eq (shape : Shape) : s.formOf shape = t.formOf shape := by
  rw [formOf, formOf, form, form, h.elementForm_eq]

lemma payload_eq {a b : ArmPlan} (hab : a.decl = b.decl) : s.payload a = t.payload b := by
  rw [payload, payload, ArmPlan.payload?, ArmPlan.payload?, hab, h.formOf_eq]

lemma fields?_eq (name : String) : s.fields? name = t.fields? name := by
  have hform : s.formOf = t.formOf := funext h.formOf_eq
  unfold fields? fieldsOf
  obtain ⟨hs, ht⟩ | ⟨⟨d, _, _, _, _⟩, ⟨_, _, _, _, _⟩, hs, ht, hij, -⟩ := h.find?_cases name <;>
    rw [hs, ht, hform]
  cases d <;> cases hij <;> rfl

lemma canonical_eq (shape : Shape) : s.canonical shape = t.canonical shape := by
  obtain ⟨base, arity, length⟩ := shape
  cases arity with
  | scalar =>
    cases base with
    | builtin b => rfl
    | named name =>
      rw [canonical, canonical]
      obtain ⟨hs, ht⟩ | ⟨i, j, hs, ht, hij⟩ := h.find?_cases name <;> simp only [hs, ht]
      simp only [Option.map_some, hij.canonical]
  | _ => rfl

lemma exists_plan (hp : s.plan? name = some p) : ∃ q, t.plan? name = some q ∧ p.Rearranged q := by
  unfold plan? at hp ⊢
  obtain ⟨hs, -⟩ | ⟨⟨d, _, _, _, _⟩, ⟨e, _, _, _, _⟩, hs, ht, hij, -⟩ := h.find?_cases name
  · rw [hs] at hp
    cases hp
  · rw [hs] at hp
    cases d with
    | union u =>
      obtain ⟨arms, rfl, harms⟩ := hij.exists_arms
      obtain ⟨q, hq⟩ := exists_unionPlan (s := t) (u := { u with arms }) fun a ha =>
        labels_ne_nil hp a (harms.mem_iff.2 ha)
      refine ⟨q, by rw [ht]; exact hq, ?_, ?_, ?_⟩
      · rw [(unionPlan?_disc hp).1, (unionPlan?_disc hq).1, h.canonical_eq]
      · obtain ⟨firsts, -, hplan⟩ := Option.bind_eq_some_iff.1 hp
        obtain ⟨others, -, hother⟩ := Option.bind_eq_some_iff.1 hq
        cases hplan
        cases hother
        rfl
      · rw [unionPlan?_senses hp, unionPlan?_senses hq]
        exact (harms.map _).append_right _
    | _ => cases hp

end Rearranged

end Schema

section

variable {I J : ClassKey → Value → Cells → Prop} {T U : ClassKey → Value → Prop} {F D : UInt64 → Prop}
  {R : UInt64 → Nat → Prop} {f g : ClassKey → ClassKey}

lemma ItemsLaid.recast {item : Form} {items : List Value} (h : ItemsLaid I R item items c)
    (hitem : ∀ v ∈ items, ∀ d, FormLaid I R item v d → FormLaid J R item (v.recast f) d) :
    ItemsLaid J R item (items.map (Value.recast f)) c := by
  induction items generalizing c with
  | nil =>
    cases h
    exact .nil
  | cons v rest ih =>
    cases h with
    | cons hv hrest =>
      exact .cons (hitem v (.head _) _ hv)
        (ih hrest fun w hw => hitem w (mem_cons_of_mem v hw))

lemma FormLaid.recast (h : FormLaid I R form v c)
    (hI : ∀ key w d, I key w d → w.depth ≤ v.depth → J key (w.recast f) d) :
    FormLaid J R form (v.recast f) c := by
  induction form generalizing v c with
  | scalar b =>
    cases h with
    | scalar h =>
      have hsame : v.recast f = v := by cases h <;> simp only [Value.recast]
      rw [hsame]
      exact .scalar h
  | enum m =>
    cases h with
    | enum h hn => simpa only [Value.recast] using .enum h hn
  | cls m =>
    cases h with
    | cls h => exact .cls (hI _ _ _ h le_rfl)
  | length bound => cases h
  | fixedOpaque n =>
    cases h with
    | fixedOpaque h lies => simpa only [Value.recast] using .fixedOpaque h lies
  | varOpaque bound =>
    cases h with
    | varOpaque h lies => simpa only [Value.recast] using .varOpaque h lies
  | string bound =>
    cases h with
    | string h => simpa only [Value.recast] using .string h
  | flag => cases h
  | optional item ih =>
    cases h with
    | absent => simpa only [Value.recast] using .absent
    | present hnull h => exact .present (by rw [Value.isNull_recast, hnull]) (ih h hI)
  | fixedArray n item ih =>
    cases h with
    | fixedArray hn h =>
      rw [Value.recast_list]
      refine .fixedArray (by rwa [length_map]) (h.recast fun w hw d hd => ih hd ?_)
      exact fun key u e hu hdepth => hI key u e hu (hdepth.trans (Value.depth_lt_list hw).le)
  | array bound item ih =>
    cases h with
    | @array _ _ items _ hn h =>
      rw [Value.recast_list, ← length_map (f := Value.recast f)]
      refine .array (by rwa [length_map]) (h.recast fun w hw d hd => ih hd ?_)
      exact fun key u e hu hdepth => hI key u e hu (hdepth.trans (Value.depth_lt_list hw).le)

lemma FieldsLaid.recast (h : FieldsLaid I R fields vs c)
    (hfield : ∀ x ∈ vs, ∀ form d, FormLaid I R form x.2 d → FormLaid J R form (x.2.recast f) d) :
    FieldsLaid J R fields (vs.map fun x => (x.1, x.2.recast f)) c := by
  induction h with
  | nil => exact .nil
  | cons hv _ ih =>
    exact .cons (hfield _ (.head _) _ _ hv)
      (ih fun x hx => hfield x (.tail _ hx))

lemma FormTyped.recast (h : FormTyped T F D form v)
    (hT : ∀ key w, T key w → w.depth ≤ v.depth → U key (w.recast f) ∧ (w.recast f).recast g = w) :
    FormTyped U F D form (v.recast f) ∧ (v.recast f).recast g = v := by
  have hitems : ∀ {item : Form} {items : List Value}, (∀ w ∈ items,
      FormTyped U F D item (w.recast f) ∧ (w.recast f).recast g = w) →
      (∀ w ∈ items.map (Value.recast f), FormTyped U F D item w) ∧
        (items.map (Value.recast f)).map (Value.recast g) = items := by
    intro item items hall
    refine ⟨forall_mem_map.2 fun w hw => (hall w hw).1, ?_⟩
    rw [map_map]
    exact (map_congr_left fun w hw => (hall w hw).2).trans (map_id' items)
  induction h with
  | @scalar b v h =>
    have hsame : ∀ k, v.recast k = v := fun k => by cases h <;> simp only [Value.recast]
    rw [hsame f, hsame g]
    exact ⟨.scalar h, rfl⟩
  | enum h => simpa only [Value.recast, and_true] using .enum h
  | cls h => exact (hT _ _ h le_rfl).imp_left .cls
  | fixedOpaque h => simpa only [Value.recast, and_true] using .fixedOpaque h
  | varOpaque h => simpa only [Value.recast, and_true] using .varOpaque h
  | string s => simpa only [Value.recast, and_true] using .string s
  | absent => simpa only [Value.recast, and_true] using .absent
  | present _ ih => exact (ih hT).imp_left .present
  | fixedArray h ih =>
    obtain ⟨htyped, hback⟩ := hitems fun w hw => ih w hw fun key u hu hdepth =>
      hT key u hu (hdepth.trans (Value.depth_lt_list hw).le)
    rw [Value.recast_list, Value.recast_list, hback]
    exact ⟨.fixedArray htyped, rfl⟩
  | array h ih =>
    obtain ⟨htyped, hback⟩ := hitems fun w hw => ih w hw fun key u hu hdepth =>
      hT key u hu (hdepth.trans (Value.depth_lt_list hw).le)
    rw [Value.recast_list, Value.recast_list, hback]
    exact ⟨.array htyped, rfl⟩

lemma FieldsTyped.recast (h : FieldsTyped T F D fields vs)
    (hfield : ∀ x ∈ vs, ∀ form, FormTyped T F D form x.2 →
      FormTyped U F D form (x.2.recast f) ∧ (x.2.recast f).recast g = x.2) :
    FieldsTyped U F D fields (vs.map fun x => (x.1, x.2.recast f)) ∧
      (vs.map fun x => (x.1, x.2.recast f)).map (fun x => (x.1, x.2.recast g)) = vs := by
  induction h with
  | nil => exact ⟨.nil, rfl⟩
  | cons hv _ ih =>
    obtain ⟨htyped, hback⟩ := hfield _ (.head _) _ hv
    obtain ⟨hrest, hrestBack⟩ := ih fun x hx => hfield x (.tail _ hx)
    refine ⟨.cons htyped hrest, ?_⟩
    rw [map_cons, map_cons, hrestBack, hback]

end

namespace Schema.Rearranged

variable {s t : Schema} (h : s.Rearranged t) (hs : s.Sound) (ht : t.Sound) {F D : UInt64 → Prop}
  {R : UInt64 → Nat → Prop}
include h hs ht

lemma instanceLaid (hv : s.InstanceLaid R key v c) :
    t.InstanceLaid R key (v.recast (s.recast t)) c := by
  induction hdepth : v.depth using Nat.strong_induction_on generalizing key v c with
  | _ n ih =>
    subst hdepth
    -- what an instance holds is nested less deeply
    have hfields : ∀ {cls : ClassKey} {us vs : Fields}, v = .object cls us → vs ⊆ us →
        ∀ x ∈ vs, ∀ form d, s.Lays R form x.2 d →
          t.Lays R form (x.2.recast (s.recast t)) d := by
      rintro cls us vs rfl hsub x hx form d hd
      refine hd.recast fun key w e hw hle => ih w.depth ?_ hw rfl
      exact hle.trans_lt (Value.depth_lt_object cls (hsub hx))
    cases hv with
    | record hname hlaid =>
      rw [Value.recast_object]
      exact .record (h.fields?_eq _ ▸ hname) (hlaid.recast (hfields rfl (List.Subset.refl _)))
    | @union name p a disc k vs c d hp hdisc hk ha hlaid =>
      obtain ⟨q, hq, hpq⟩ := h.exists_plan hp
      obtain ⟨b, hb, hsense⟩ := hpq.exists_select? (hs.plans name p hp).1 (ht.plans name q hq).1 ha
      have hdecl : a.decl = b.decl := congrArg (·.2.1) hsense.symm
      have hdisc := hfields rfl (List.Subset.refl _) (p.discField, disc) (by simp) _ _ hdisc
      have hlaid := hlaid.recast (hfields rfl (subset_append_left _ _))
      rw [Value.recast_number _ hk, h.formOf_eq, hpq.disc] at hdisc
      rw [h.payload_eq hdecl] at hlaid
      rw [Value.recast_object, map_append, map_singleton, Value.recast_number _ hk,
        hpq.discField, recast_arm ht hp hq (UnionPlan.mem_of_select? ha)
          (UnionPlan.mem_of_select? hb) hsense]
      exact .union hq hdisc hk hb hlaid

lemma hasInstance (hv : s.HasInstance F D key v) :
    t.HasInstance F D key (v.recast (s.recast t)) ∧
      (v.recast (s.recast t)).recast (t.recast s) = v := by
  induction hdepth : v.depth using Nat.strong_induction_on generalizing key v with
  | _ n ih =>
    subst hdepth
    have hfields : ∀ {cls : ClassKey} {us vs : Fields}, v = .object cls us → vs ⊆ us →
        ∀ x ∈ vs, ∀ form, s.Types F D form x.2 →
          t.Types F D form (x.2.recast (s.recast t)) ∧
            (x.2.recast (s.recast t)).recast (t.recast s) = x.2 := by
      rintro cls us vs rfl hsub x hx form hform
      refine hform.recast fun key w hw hle => ih w.depth ?_ hw rfl
      exact hle.trans_lt (Value.depth_lt_object cls (hsub hx))
    cases hv with
    | record hname htyped =>
      obtain ⟨htyped, hback⟩ := htyped.recast (hfields rfl (List.Subset.refl _))
      rw [Value.recast_object, Value.recast_object, hback]
      exact ⟨.record (h.fields?_eq _ ▸ hname) htyped, rfl⟩
    | @union name p a disc vs hp ha hdisc htyped =>
      obtain ⟨q, hq, hpq⟩ := h.exists_plan hp
      obtain ⟨b, hb, hsense⟩ := hpq.exists_arm ha
      obtain ⟨k, hk⟩ := (hs.plans name p hp).2.exists_number hdisc
      have hdecl : a.decl = b.decl := congrArg (·.2.1) hsense.symm
      obtain ⟨hdisc, -⟩ := hfields rfl (List.Subset.refl _) (p.discField, disc) (by simp) _ hdisc
      obtain ⟨htyped, hback⟩ := htyped.recast (hfields rfl (subset_append_left _ _))
      rw [Value.recast_number _ hk, h.formOf_eq, hpq.disc] at hdisc
      rw [h.payload_eq hdecl] at htyped
      rw [Value.recast_object, map_append, map_singleton, Value.recast_number _ hk,
        recast_arm ht hp hq ha hb hsense, Value.recast_object, map_append, hback,
        map_singleton, Value.recast_number _ hk, recast_arm hs hq hp hb ha hsense.symm,
        hpq.discField]
      exact ⟨.union hq hb hdisc htyped, rfl⟩

lemma laid (hv : s.Laid R name v c) : t.Laid R name (v.recast (s.recast t)) c := by
  unfold Laid formNamed at hv ⊢
  rw [← h.formOf_eq]
  exact hv.recast fun key w d hw _ => h.instanceLaid hs ht hw

lemma hasType (hv : s.HasType F D name v) :
    t.HasType F D name (v.recast (s.recast t)) ∧ (v.recast (s.recast t)).recast (t.recast s) = v := by
  unfold HasType formNamed at hv ⊢
  rw [← h.formOf_eq]
  exact hv.recast fun key w hw _ => h.hasInstance hs ht hw

end Schema.Rearranged

end Xdr
