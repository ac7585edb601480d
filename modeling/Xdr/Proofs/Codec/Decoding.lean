import Xdr.Proofs.Codec.Chains

/-!
# Decoding

The cells of a value are decoded into the value, whatever stands for padding, and whatever is decoded
was laid out in the cells that were taken.
-/

namespace Xdr

open List

open Unpack (build node select settle values)

variable {vs : Fields} {p : UnionPlan} {I : ClassKey → Value → Cells → Prop}
  {s : Schema} {lib : Imports.Support} {m : Module} {strict : Bool} {disc v : Value} {k : Int}
  {cells : Cells} {n : Nat}

lemma zip_map_names (vs : Fields) (g : String × Value → Value) :
    (vs.map (·.1)).zip (vs.map g) = vs.map fun f => (f.1, g f) := by
  rw [zip_map']

section

variable {d : Decoder} {slots : List Slot} {fields : List (String × Form)}
  (hslots : slots.map (fun x => (x.attr, x.form)) = fields) {I : ClassKey → Value → Cells → Prop}
  {R : UInt64 → Nat → Prop}

include hslots

lemma reads_values {c : Cells}
    (hform : ∀ f ∈ fields, ∀ v e, FormLaid I R f.2 v e → Reads strict (f.2.read d) e v.viewed)
    (h : FieldsLaid I R fields vs c) :
    Reads strict (values d slots) c (vs.map fun f => f.2.viewed) := by
  induction h generalizing slots with
  | nil =>
    obtain rfl := map_eq_nil_iff.1 hslots
    exact Reads.pure _
  | @cons _ _ _ _ _ c e hv _ ih =>
    obtain ⟨slot, rest, rfl, hslot, hrest⟩ := map_eq_cons_iff.1 hslots
    cases hslot
    have htail := ih hrest fun f hf => hform f (.tail _ hf)
    exact (hform _ (.head _) _ _ hv).bind (htail.bind_pure rfl)

lemma takes_values
    (hform : ∀ f ∈ fields, Takes strict (f.2.read d) fun c v => FormLaid I R f.2 v c ∧ v.viewed = v) :
    Takes strict (values d slots) fun c xs => ∃ vs : Fields,
      xs = vs.map (·.2) ∧ FieldsLaid I R fields vs c ∧ ∀ f ∈ vs, f.2.viewed = f.2 := by
  induction slots generalizing fields with
  | nil =>
    subst hslots
    exact Takes.pure ⟨[], rfl, .nil, by simp⟩
  | cons slot rest ih =>
    subst hslots
    refine (hform (slot.attr, slot.form) (.head _)).bind ?_
    rintro c v ⟨hv, hviewed⟩
    refine (ih rfl fun f hf => hform f (.tail _ hf)).bind ?_
    rintro e xs ⟨vs, rfl, hvs, hall⟩
    refine Takes.pure ⟨(slot.attr, v) :: vs, rfl, ?_, ?_⟩
    · rw [append_nil]
      exact .cons hv hvs
    · exact forall_mem_cons.2 ⟨hviewed, hall⟩

end

namespace Faithful

variable (hm : Faithful s lib m) {R : UInt64 → Nat → Prop}

include hm

omit hm in
lemma labelValue_number (hp : p.Sound) {a : ArmPlan} (ha : a ∈ p.arms) {n : Int}
    (hn : n ∈ a.labels) : (p.labelValue n).wholeNumber? = some n := by
  unfold UnionPlan.labelValue
  split
  · rfl
  · split_ifs with hbool
    · rcases hp.truths hbool a ha n hn with rfl | rfl <;> rfl
    · rfl

lemma matches_eq (hk : disc.wholeNumber? = some k) {value : Int → Value} {labels : List Int}
    (h : ∀ n ∈ labels, (value n).wholeNumber? = some n) :
    (labels.map fun n => (.ok (value n) : Except Fault Value)).anyM
      (fun label => do m.truth (← m.equal disc (← label))) = .ok (labels.contains k) := by
  induction labels with
  | nil => rfl
  | cons n rest ih =>
    have hequal := hm.equal_numbers hk (h n (.head _))
    have htruth := hm.truth (.bool (decide (k = n))) (by simp)
    have htest : (m.equal disc (value n) >>= m.truth) = .ok (decide (k = n)) := by
      rw [hequal]
      exact htruth
    have hrest := ih fun i hi => h i (.tail n hi)
    rw [map_cons, anyM_cons]
    show (m.equal disc (value n) >>= m.truth) >>= _ = _
    rw [htest, contains_cons, Bool.beq_eq_decide_eq]
    cases decide (k = n) with
    | true => rfl
    | false => exact hrest

lemma select_eq {name : String} (hp : p.Sound) (hk : disc.wholeNumber? = some k)
    {arms : List ArmPlan} (harms : ∀ a ∈ arms, a ∈ p.arms) :
    select m disc (arms.map (s.branchOf name p)) =
      .ok ((arms.find? fun a => a.labels.contains k).map (s.branchOf name p)) := by
  induction arms with
  | nil => rfl
  | cons a rest ih =>
    have hmatches := hm.matches_eq hk fun n hn =>
      labelValue_number hp (harms a (.head _)) hn
    have hrest := ih fun b hb => harms b (.tail a hb)
    have hbranch : (s.branchOf name p a).labels = a.labels.map fun n => .ok (p.labelValue n) := rfl
    rw [map_cons, select, hbranch, hmatches, List.find?_cons]
    cases a.labels.contains k with
    | true => rfl
    | false => exact hrest

lemma branch_cases (name : String) (hp : p.Sound) (hk : disc.wholeNumber? = some k) :
    (∃ a, p.select? k = some a ∧
      (select m disc (s.unionBodyOf name p).branches = .ok (some (s.branchOf name p a)) ∨
        select m disc (s.unionBodyOf name p).branches = .ok none ∧
          (s.unionBodyOf name p).fallback = some (s.branchOf name p a))) ∨
    p.select? k = none ∧ select m disc (s.unionBodyOf name p).branches = .ok none ∧
      (s.unionBodyOf name p).fallback = none := by
  have hexplicit : ∀ a ∈ p.arms.filter (!·.isDefault), a ∈ p.arms :=
    fun a ha => mem_of_mem_filter ha
  have hsame : (p.arms.filter (!·.isDefault)).find? (fun a => a.labels.contains k) =
      p.arms.find? fun a => !a.isDefault && a.labels.contains k := by
    simp [List.find?_filter]
  have hselect : select m disc (s.unionBodyOf name p).branches = _ :=
    hm.select_eq hp hk hexplicit
  rw [hsame] at hselect
  unfold UnionPlan.select?
  cases hfind : p.arms.find? fun a => !a.isDefault && a.labels.contains k with
  | some a =>
    rw [hfind] at hselect
    exact .inl ⟨a, rfl, .inl hselect⟩
  | none =>
    rw [hfind] at hselect
    cases hdefault : p.arms.find? (·.isDefault) with
    | some a => exact .inl ⟨a, rfl, .inr ⟨hselect, by simp [Schema.unionBodyOf, hdefault]⟩⟩
    | none => exact .inr ⟨rfl, hselect, by simp [Schema.unionBodyOf, hdefault]⟩

omit hm in
lemma viewed_number (hk : v.wholeNumber? = some k) : v.viewed = v := by
  cases v <;> first | rfl | simp [Value.wholeNumber?, Value.integer?] at hk

lemma invoke_arm {name : String} (hp : s.plan? name = some p) {a : ArmPlan} (ha : a ∈ p.arms)
    (vs : Fields) (hvs : vs.map (·.1) = (s.payload a).map (·.1)) (disc : Value) :
    m.invoke (.cls (.arm name a.attr)) (vs.map (·.2) ++ [disc]) [] =
      .ok (.object (.arm name a.attr) (vs ++ [(p.discField, disc)])) := by
  have hmake := (hm.arm name p hp a ha).construct (vs.map (·.2) ++ [disc])
    (by simp [← hvs])
  have hzip := zip_map_names (vs ++ [(p.discField, disc)]) (·.2)
  rw [← hvs] at hmake
  rw [map_append, map_append, map_singleton, map_singleton, map_id'] at hzip
  rwa [hzip] at hmake

section

variable {name : String} {p : UnionPlan} (hp : s.plan? name = some p) {a : ArmPlan} (ha : a ∈ p.arms)
  {d : Decoder}

include hp ha

lemma reads_build
    (hform : ∀ f ∈ s.payload a, ∀ v e, FormLaid I R f.2 v e → Reads strict (f.2.read d) e v.viewed)
    {c : Cells} (h : FieldsLaid I R (s.payload a) vs c) (disc : Value) :
    Reads strict (build m d (s.branchOf name p a) disc) c
      (.object (.arm name a.attr) ((vs.map fun f => (f.1, f.2.viewed)) ++ [(p.discField, disc)])) := by
  have hinvoke := hm.invoke_arm hp ha (vs.map fun f => (f.1, f.2.viewed))
    (by simp [← h.names]) disc
  unfold Schema.payload at hform h
  unfold build Schema.branchOf
  cases hpayload : a.payload? with
  | none =>
    rw [hpayload] at h
    cases h
    simp only [settle, pure_bind, Option.map_none]
    simp only [map_nil, nil_append] at hinvoke
    rw [hinvoke]
    exact Reads.pure _
  | some field =>
    rw [hpayload] at h hform
    obtain ⟨v, rfl, hv⟩ := fieldsLaid_singleton_iff.1 h
    simp only [settle, pure_bind, Option.map_some]
    simp only [map_cons, map_nil, singleton_append] at hinvoke
    have hread := hform _ (.head _) v c hv
    refine hread.bind_pure ?_
    rw [hinvoke]
    rfl

lemma takes_build (hform : ∀ f ∈ s.payload a,
      Takes strict (f.2.read d) fun c v => FormLaid I R f.2 v c ∧ v.viewed = v) (disc : Value) :
    Takes strict (build m d (s.branchOf name p a) disc) fun c v =>
      ∃ vs : Fields, FieldsLaid I R (s.payload a) vs c ∧
        (∀ f ∈ vs, f.2.viewed = f.2) ∧
        v = .object (.arm name a.attr) (vs ++ [(p.discField, disc)]) := by
  have hinvoke := fun (vs : Fields) hvs => hm.invoke_arm hp ha vs hvs disc
  unfold Schema.payload at hform hinvoke ⊢
  unfold build Schema.branchOf
  cases hpayload : a.payload? with
  | none =>
    simp only [hpayload] at hinvoke
    have hmake := hinvoke [] rfl
    simp only [settle, pure_bind, Option.map_none]
    rw [map_nil, nil_append] at hmake
    rw [hmake]
    exact Takes.pure ⟨[], .nil, by simp, rfl⟩
  | some field =>
    simp only [hpayload] at hinvoke hform
    simp only [settle, pure_bind, Option.map_some]
    refine (hform _ (.head _)).bind_last ?_
    rintro c v ⟨hv, hviewed⟩
    have hmake := hinvoke [(field, v)] rfl
    rw [map_singleton, singleton_append] at hmake
    rw [hmake]
    exact Takes.pure ⟨rfl,
      [(field, v)], fieldsLaid_singleton_iff.2 ⟨v, rfl, hv⟩, by simpa using hviewed, rfl⟩

omit ha in
lemma reads_union (hsound : p.Sound) {c e : Cells}
    (hdisc : Reads strict ((s.formOf p.disc).read d) c disc) (hk : disc.wholeNumber? = some k)
    (ha : p.select? k = some a)
    (hform : ∀ f ∈ s.payload a, ∀ v e, FormLaid I R f.2 v e → Reads strict (f.2.read d) e v.viewed)
    (h : FieldsLaid I R (s.payload a) vs e) :
    Reads strict (Unpack.union m d (s.unionBodyOf name p)) (c ++ e)
      (.object (.arm name a.attr) ((vs.map fun f => (f.1, f.2.viewed)) ++ [(p.discField, disc)])) := by
  have hbuild := hm.reads_build hp (UnionPlan.mem_of_select? ha) hform h disc
  refine hdisc.bind ?_
  obtain ⟨b, hb, hselect | ⟨hselect, hfall⟩⟩ | ⟨hnone, -, -⟩ :=
    hm.branch_cases (s := s) name hsound hk
  · rw [ha] at hb
    cases hb
    simpa only [hselect, settle, pure_bind] using hbuild
  · rw [ha] at hb
    cases hb
    simpa only [hselect, hfall, settle, pure_bind] using hbuild
  · rw [ha] at hnone
    cases hnone

omit ha in
lemma takes_union (hsound : p.Sound) (hdisc : Takes strict ((s.formOf p.disc).read d) fun c v =>
      FormLaid I R (s.formOf p.disc) v c ∧ ∃ k, v.wholeNumber? = some k)
    (hform : ∀ a ∈ p.arms, ∀ f ∈ s.payload a,
      Takes strict (f.2.read d) fun c v => FormLaid I R f.2 v c ∧ v.viewed = v) :
    Takes strict (Unpack.union m d (s.unionBodyOf name p)) fun cells v =>
      ∃ a disc k vs c e, cells = c ++ e ∧
        v = .object (.arm name a.attr) (vs ++ [(p.discField, disc)]) ∧
        FormLaid I R (s.formOf p.disc) disc c ∧ disc.wholeNumber? = some k ∧ p.select? k = some a ∧
        FieldsLaid I R (s.payload a) vs e ∧ ∀ f ∈ vs, f.2.viewed = f.2 := by
  refine hdisc.bind ?_
  rintro c disc ⟨hlaid, k, hk⟩
  have hbuild : ∀ a, p.select? k = some a → Takes strict (build m d (s.branchOf name p a) disc)
      fun e v => ∃ a disc k vs c' e', c ++ e = c' ++ e' ∧
        v = .object (.arm name a.attr) (vs ++ [(p.discField, disc)]) ∧
        FormLaid I R (s.formOf p.disc) disc c' ∧ disc.wholeNumber? = some k ∧
        p.select? k = some a ∧ FieldsLaid I R (s.payload a) vs e' ∧
        ∀ f ∈ vs, f.2.viewed = f.2 := by
    intro a ha
    have hmem := UnionPlan.mem_of_select? ha
    refine (hm.takes_build hp hmem (hform a hmem) disc).mono ?_
    rintro e v ⟨vs, hvs, hviewed, rfl⟩
    exact ⟨a, disc, k, vs, c, e, rfl, rfl, hlaid, hk, ha, hvs, hviewed⟩
  obtain ⟨a, ha, hselect | ⟨hselect, hfall⟩⟩ | ⟨-, hselect, hfall⟩ :=
    hm.branch_cases (s := s) name hsound hk
  · simpa only [hselect, settle, pure_bind] using hbuild a ha
  · simpa only [hselect, hfall, settle, pure_bind] using hbuild a ha
  · simp only [hselect, hfall, settle, pure_bind]
    refine Takes.offset fun start => ?_
    cases Unpack.shown m disc <;> exact Takes.throw _

end

section

variable {name : String} {c : Chain} {link : Shape} (hlinked : s.Linked name c link) {d : Decoder}
  (hd : d.make = fun key args => m.construct key args [])

include hlinked hd

lemma make_node (us ws : Fields) (v : Value)
    (hus : us.map (·.1) = (s.fieldsOf c.before).map (·.1))
    (hws : ws.map (·.1) = (s.fieldsOf c.behind).map (·.1)) :
    d.make (.type name) (us.map (·.2) ++ wrapped c.wrappers v :: ws.map (·.2)) =
      .ok (.object (.type name) (c.node us v ws)) := by
  have hmake := (hm.record name _ hlinked.fields?_eq).1.construct
    (us.map (·.2) ++ wrapped c.wrappers v :: ws.map (·.2))
    (by
      have hbefore := congrArg List.length hus
      have hbehind := congrArg List.length hws
      simp only [length_map] at hbefore hbehind
      simp [hbefore, hbehind])
  have hzip := zip_map_names (c.node us v ws) (·.2)
  rw [map_append, map_cons, ← hus, ← hws] at hmake
  rw [map_append, map_append, map_cons, map_cons, map_id'] at hzip
  rw [hd]
  rwa [hzip] at hmake

lemma reads_node {bound : Nat}
    (hbefore : ∀ us a, s.LaysAll R (s.fieldsOf c.before) us a → a.length ≤ bound →
      Reads strict (values d (s.slotsOf lib c.before)) a (us.map fun f => f.2.viewed))
    (hbehind : ∀ us a, s.LaysAll R (s.fieldsOf c.behind) us a → a.length ≤ bound →
      Reads strict (values d (s.slotsOf lib c.behind)) a (us.map fun f => f.2.viewed))
    (hv : s.InstanceLaid R (.type name) v cells) (hbound : cells.length ≤ bound)
    (hn : cells.length < 4 * n) :
    Reads strict (node d (.type name) (s.chainBodyOf lib c) n) cells v.viewed := by
  induction n generalizing v cells with
  | zero => omega
  | succ n ih =>
    obtain ⟨us, w, ws, a, l, b, rfl, rfl, hus, hw, hws⟩ := (hlinked.laid_iff _ _).1 hv
    obtain ⟨e, hnext, rfl⟩ := Schema.optional_laid_iff.1 hw
    simp only [length_append, Cells.length_word] at hbound hn
    have hread : Reads strict (if !w.isNull then node d (.type name) (s.chainBodyOf lib c) n
        else pure .null) e w.viewed := by
      cases hnext with
      | none => exact Reads.pure _
      | some hlaid =>
        rw [hlaid.isNull]
        exact ih hlaid (by omega) (by omega)
    have hmake := hm.make_node hlinked hd (us.map fun f => (f.1, f.2.viewed))
      (ws.map fun f => (f.1, f.2.viewed)) w.viewed (by rw [map_map]; exact hus.names)
      (by rw [map_map]; exact hws.names)
    simp only [map_map, Function.comp_def] at hmake
    have hcells : a ++ (Cells.word (!w.isNull).toNat ++ e ++ b) =
        a ++ (Cells.word (!w.isNull).toNat ++ (e ++ (b ++ []))) := by simp
    rw [hcells, Value.viewed_object, map_append, map_cons, viewed_wrapped, node]
    refine (hbefore us a hus (by omega)).bind ((reads_flag _).bind (hread.bind ?_))
    simp only [hm.wrap_node hlinked hd, settle, pure_bind]
    refine (hbehind ws b hws (by omega)).bind ?_
    rw [hmake]
    exact Reads.pure _

lemma takes_node (hI : ∀ v c, I (.type name) v c → v.viewed = v ∧ v.isNull = false)
    (hvalues : ∀ decls, Takes strict (values d (s.slotsOf lib decls)) fun a xs =>
      ∃ us : Fields, xs = us.map (·.2) ∧ FieldsLaid I R (s.fieldsOf decls) us a ∧
        ∀ f ∈ us, f.2.viewed = f.2)
    (hnode : ∀ us w ws a l b, FieldsLaid I R (s.fieldsOf c.before) us a →
      FormLaid I R (.optional (.cls (.cls (.type name)))) w l →
      FieldsLaid I R (s.fieldsOf c.behind) ws b →
      (∀ f ∈ c.node us w ws, f.2.viewed = f.2) →
      I (.type name) (.object (.type name) (c.node us w ws)) (a ++ (l ++ b))) (n : Nat) :
    Takes strict (node d (.type name) (s.chainBodyOf lib c) n) fun cells v =>
      I (.type name) v cells := by
  induction n with
  | zero => exact Takes.throw _
  | succ n ih =>
    refine (hvalues c.before).bind ?_
    rintro a xs ⟨us, rfl, hus, husViewed⟩
    refine takes_flag.bind ?_
    rintro l more rfl
    have hnext : Takes strict (if more then node d (.type name) (s.chainBodyOf lib c) n
        else pure .null) fun e w => FormLaid I R (.optional (.cls (.cls (.type name)))) w
          (.word more.toNat ++ e) ∧ w.viewed = w := by
      cases more with
      | false => exact Takes.pure ⟨.absent, rfl⟩
      | true => exact ih.mono fun e w hw => ⟨.present (hI w e hw).2 (.cls hw), (hI w e hw).1⟩
    refine hnext.bind ?_
    rintro e w ⟨hw, hwViewed⟩
    simp only [hm.wrap_node hlinked hd, settle, pure_bind]
    refine (hvalues c.behind).bind ?_
    rintro b ys ⟨ws, rfl, hws, hwsViewed⟩
    rw [hm.make_node hlinked hd us ws w hus.names hws.names]
    refine Takes.pure ?_
    have hlaid := hnode us w ws a _ b hus hw hws fun f hf => ?_
    · simpa only [append_assoc, append_nil] using hlaid
    · rcases mem_append.1 hf with hf | hf
      · exact husViewed f hf
      · rcases mem_cons.1 hf with rfl | hf
        · exact (viewed_wrapped _ _).trans (by rw [hwViewed])
        · exact hwsViewed f hf

end

lemma takes_unpack (hs : s.Sound) {P : UInt64 → Prop}
    (hR : ∀ n, n < 256 ^ 4 → P (UInt64.ofNat (Number.widen n)) → R (UInt64.ofNat (Number.widen n)) n)
    (n : Nat) (name : String) :
    Takes strict (m.unpack strict n (.type name)) fun c v =>
      (v.AllFloats P → s.InstanceLaid R (.type name) v c) ∧ v.viewed = v ∧ v.isNull = false := by
  induction n generalizing name with
  | zero => exact Takes.throw _
  | succ n ih =>
    -- what is known of the instances one level below, and what follows once their numbers are right
    let I : ClassKey → Value → Cells → Prop := fun key v c =>
      (v.AllFloats P → s.InstanceLaid R key v c) ∧ v.viewed = v ∧ v.isNull = false
    let S : UInt64 → Nat → Prop := fun bits n => P bits → R bits n
    let d : Decoder := ⟨strict, m.unpack strict n, fun key args => m.construct key args []⟩
    have hform : ∀ form : Form, form.Regular →
        Takes strict (form.read d) fun c v => FormLaid I S form v c ∧ v.viewed = v :=
      fun form hform => hform.takes (d := d) (I := I) ih (fun _ _ _ h => h.2.1) hR fun _ _ _ h => h.2.2
    have hlay : ∀ {form : Form} {v : Value} {c : Cells}, FormLaid I S form v c → v.AllFloats P →
        s.Lays R form v c :=
      fun h hv => h.imp hv (fun _ _ _ hw hfloats _ _ _ => hw.1 hfloats) fun _ _ hp h => h hp
    have hlayFields : ∀ {fields : List (String × Form)} {vs : Fields} {c : Cells},
        FieldsLaid I S fields vs c → (∀ f ∈ vs, f.2.AllFloats P) →
        s.LaysAll R fields vs c :=
      fun h hvs => h.imp fun f _ g hg e he _ => hlay he (hvs g hg)
    have hvalues : ∀ decls, Takes strict (values d (s.slotsOf lib decls)) fun c xs =>
        ∃ vs : Fields, xs = vs.map (·.2) ∧
          FieldsLaid I S (s.fieldsOf decls) vs c ∧ ∀ f ∈ vs, f.2.viewed = f.2 := by
      refine fun decls => takes_values (slotsOf_fields decls) fun f hf => hform f.2 ?_
      obtain ⟨g, -, rfl⟩ := mem_map.1 hf
      exact hs.formOf_regular _
    have hreadable := hm.readable name
    rw [Module.unpack]
    unfold Unpack.own
    simp only [hreadable, Bool.not_true, Bool.false_eq_true, ite_false]
    rcases hm.body_trichotomy name with ⟨fields, hfields⟩ | ⟨p, hplan⟩ | hbody
    · rcases hm.body_cases hfields with ⟨decls, rfl, hbody⟩ | ⟨c, link, hbody, hlinked⟩
      · simp only [hbody]
        refine (hvalues decls).bind_last ?_
        rintro c xs ⟨vs, rfl, hvs, hviewed⟩
        have hmake := (hm.record name _ hfields).1.construct (vs.map (·.2))
          (by rw [← hvs.names, length_map, length_map])
        have hzip := zip_map_names vs (·.2)
        rw [map_id'] at hzip
        rw [← hvs.names, hzip] at hmake
        simp only [hmake, settle]
        refine Takes.pure ⟨rfl, fun hfloats => ?_, Value.viewed_object_of_forall hviewed, rfl⟩
        exact .record hfields (hlayFields hvs (Value.allFloats_object.1 hfloats))
      · simp only [hbody, hm.chain_eq_node]
        refine hm.takes_node hlinked rfl (I := I) (fun _ _ h => h.2) hvalues ?_ (n + 1)
        intro us w ws a l b hus hw hws hviewed
        refine ⟨fun hfloats => (hlinked.laid_iff _ _).2 ?_, Value.viewed_object_of_forall hviewed, rfl⟩
        have hall := Value.allFloats_object.1 hfloats
        refine ⟨us, w, ws, a, l, b, rfl, rfl, hlayFields hus fun f hf => hall f (by simp [hf]), ?_,
          hlayFields hws fun f hf => hall f (by simp [hf])⟩
        exact hlay hw ((allFloats_wrapped P c.wrappers w).1
          (hall (c.link, wrapped c.wrappers w) (by simp)))
    · simp only [hm.body_union hplan]
      obtain ⟨hsound, hnumeric⟩ := hs.plans name p hplan
      refine (hm.takes_union hplan hsound (I := I) (R := S) ?_ fun a _ f hf =>
        hform f.2 (hs.payload_regular a f hf)).mono ?_
      · refine (hform _ (hs.formOf_regular p.disc)).mono fun c v hv => ⟨hv.1, ?_⟩
        exact hnumeric.exists_number_of_laid hv.1
      · rintro cells v ⟨a, disc, k, vs, c, e, rfl, rfl, hdisc, hk, ha, hvs, hviewed⟩
        refine ⟨fun hfloats => ?_, Value.viewed_object_of_forall fun f hf => ?_, rfl⟩
        · have hall := Value.allFloats_object.1 hfloats
          exact .union hplan (hlay hdisc (hall (p.discField, disc) (by simp))) hk ha
            (hlayFields hvs fun f hf => hall f (by simp [hf]))
        · rcases mem_append.1 hf with hf | hf
          · exact hviewed f hf
          · obtain rfl := mem_singleton.1 hf
            exact viewed_number hk
    · simp only [hbody]
      exact Takes.throw _

omit hm in
lemma levels_below {ranks size part rank other : Nat} (hn : ranks * (size / 4) + rank < n + 1)
    (hother : other < ranks) (hpart : part ≤ size) (h : other < rank ∨ part + 4 ≤ size) :
    ranks * (part / 4) + other < n := by
  rcases h with h | h
  · have := Nat.mul_le_mul_left ranks (Nat.div_le_div_right hpart : part / 4 ≤ size / 4)
    omega
  · have hfewer : part / 4 + 1 ≤ size / 4 := by omega
    have := Nat.mul_le_mul_left ranks hfewer
    rw [Nat.mul_add, Nat.mul_one] at this
    omega

lemma reads_unpack (hs : s.Sound) {rank : String → Nat} (hrank : s.Ranked rank)
    (hR : ∀ bits n, R bits n → bits = UInt64.ofNat (Number.widen n)) {name : String}
    (h : s.InstanceLaid R (.type name) v cells) (hn : m.ranks * (cells.length / 4) + rank name < n)
    :
    Reads strict (m.unpack strict n (.type name)) cells v.viewed := by
  induction n generalizing name v cells with
  | zero => omega
  | succ n ih =>
    let d : Decoder := ⟨strict, m.unpack strict n, fun key args => m.construct key args []⟩
    have hranks : ∀ other, rank other < m.ranks := fun other => by
      rw [hm.ranks]
      exact Nat.lt_succ_of_le (hrank.bounded other)
    -- a part of the instance is read one level below it
    have hform : ∀ (form : Form) (v : Value) (c : Cells), form.Regular →
        (∀ other, form.held = some (.type other) → rank other < rank name) →
        c.length ≤ cells.length → s.Lays R form v c →
        FormLaid (fun key w e => Reads strict (m.unpack strict n key) e w.viewed) R form v c := by
      intro form v c hregular hheld hlength hlaid
      refine hlaid.imp (P := fun _ => True) (Value.allFloats_of_forall (fun _ => trivial) v) ?_
        fun _ _ _ h => h
      intro key w e hw _ _ hle hplace
      obtain ⟨other, rfl⟩ : ∃ other, key = .type other := by cases hw <;> exact ⟨_, rfl⟩
      refine ih hw (levels_below hn (hranks other) (hle.trans hlength) ?_)
      exact hplace.imp (hheld other) fun hshort => by omega
    have hvalues : ∀ decls us c, (∀ f ∈ s.fieldsOf decls, ∀ other, f.2.held = some (.type other) →
          rank other < rank name) → c.length ≤ cells.length →
        s.LaysAll R (s.fieldsOf decls) us c →
        Reads strict (values d (s.slotsOf lib decls)) c (us.map fun f => f.2.viewed) := by
      intro decls us c hheld hlength hus
      have hregular : ∀ f ∈ s.fieldsOf decls, f.2.Regular := fun f hf => by
        obtain ⟨g, -, rfl⟩ := mem_map.1 hf
        exact hs.formOf_regular _
      refine reads_values (slotsOf_fields decls)
        (fun f hf v e hv => (hregular f hf).reads (d := d) hR hv) ?_
      exact hus.imp fun f hf g hg e he hle =>
        hform f.2 g.2 e (hregular f hf) (hheld f hf) (hle.trans hlength) he
    have hreadable := hm.readable name
    rw [Module.unpack]
    unfold Unpack.own
    simp only [hreadable, Bool.not_true, Bool.false_eq_true, ite_false]
    cases h with
    | @record _ fields vs _ hfields hlaid =>
      have hheld := hrank.fields name fields hfields
      rcases hm.body_cases hfields with ⟨decls, rfl, hbody⟩ | ⟨c, link, hbody, hlinked⟩
      · have hmake := (hm.record name _ hfields).1.construct (vs.map fun f => f.2.viewed)
          (by rw [← hlaid.names, length_map, length_map])
        rw [← hlaid.names, zip_map_names vs fun f => f.2.viewed, ← Value.viewed_object] at hmake
        simp only [hbody]
        refine (hvalues decls vs cells hheld le_rfl hlaid).bind_pure ?_
        simp only [hmake, settle]
      · have hsome := hlinked.fields?_eq
        rw [hfields, Option.some.injEq] at hsome
        subst hsome
        have hnodes : cells.length < 4 * (n + 1) := by
          have hpos := hranks name
          have hle := Nat.le_mul_of_pos_left (cells.length / 4) (by omega : 0 < m.ranks)
          omega
        simp only [hbody, hm.chain_eq_node]
        exact hm.reads_node hlinked (d := d) rfl
          (fun us a hus hle => hvalues c.before us a (fun f hf => hheld f (by simp [hf])) hle hus)
          (fun us a hus hle => hvalues c.behind us a (fun f hf => hheld f (by simp [hf])) hle hus)
          (.record hfields hlaid) le_rfl hnodes
    | @union _ p a disc k vs c e hplan hdisc hk ha hlaid =>
      obtain ⟨hsound, hnumeric⟩ := hs.plans name p hplan
      have hregular := hs.payload_regular a
      have hheld := hrank.payload name p hplan a (UnionPlan.mem_of_select? ha)
      have hdiscHeld : ∀ other, (s.formOf p.disc).held = some (.type other) →
          rank other < rank name := by
        intro other hother
        cases hnumeric.held.symm.trans hother
      rw [length_append] at hform
      have hdiscRead := (hs.formOf_regular p.disc).reads (d := d) hR
        (hform _ disc c (hs.formOf_regular p.disc) hdiscHeld (by omega) hdisc)
      have hpayload := hlaid.imp fun f hf g _ r hr hle =>
        hform f.2 g.2 r (hregular f hf) (hheld f hf) (by omega) hr
      rw [viewed_number hk] at hdiscRead
      rw [Value.viewed_object, map_append, map_singleton, viewed_number hk]
      simp only [hm.body_union hplan]
      exact hm.reads_union hplan hsound hdiscRead hk ha
        (fun f hf v r hv => (hregular f hf).reads (d := d) hR hv) hpayload

end Faithful

end Xdr
