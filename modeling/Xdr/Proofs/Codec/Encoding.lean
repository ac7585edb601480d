import Xdr.Proofs.Loops.Writing

/-!
# Encoding

A value with a layout is encoded in its cells, and a value of the right type that is encoded has a
layout.
-/

namespace Xdr

open List

variable {s : Schema} {lib : Imports.Support} {m : Module} {key : ClassKey} {v : Value}
  {n : Nat} {I : ClassKey → Value → Cells → Prop} {P : UInt64 → Prop} {cells : Cells}

section

variable {e : Encoder} {owner : Value} {slots : List Slot} {fields : List (String × Form)}
  {vs : Fields} (hslots : slots.map (fun x => (x.attr, x.form)) = fields)
  (hattr : ∀ f ∈ vs, m.attr owner f.1 = .ok f.2)

include hslots hattr

lemma writes_slots {R : UInt64 → Nat → Prop} {c : Cells}
    (hform : ∀ f ∈ fields, ∀ v d, FormLaid I R f.2 v d → Writes (f.2.write e v) d)
    (h : FieldsLaid I R fields vs c) : Writes (Pack.slots m e owner slots) c := by
  induction h generalizing slots with
  | nil =>
    obtain rfl := map_eq_nil_iff.1 hslots
    exact Writes.pure
  | cons hv _ ih =>
    obtain ⟨slot, rest, rfl, hslot, hrest⟩ := map_eq_cons_iff.1 hslots
    cases hslot
    have hget := hattr _ (.head _)
    simp only [Pack.slots, hget]
    refine (hform _ (.head _) _ _ hv).bind (ih hrest ?_ ?_)
    · exact fun f hf => hattr f (.tail _ hf)
    · exact fun f hf => hform f (.tail _ hf)

lemma puts_slots {T : ClassKey → Value → Prop} {F D : UInt64 → Prop} {R : UInt64 → Nat → Prop}
    (hform : ∀ f ∈ fields, ∀ v, FormTyped T F D f.2 v → Puts (f.2.write e v) (FormLaid I R f.2 v))
    (h : FieldsTyped T F D fields vs) :
    Puts (Pack.slots m e owner slots) (FieldsLaid I R fields vs) := by
  induction h generalizing slots with
  | nil =>
    obtain rfl := map_eq_nil_iff.1 hslots
    exact Puts.pure .nil
  | cons hv _ ih =>
    obtain ⟨slot, rest, rfl, hslot, hrest⟩ := map_eq_cons_iff.1 hslots
    cases hslot
    have hget := hattr _ (.head _)
    simp only [Pack.slots, hget]
    refine (hform _ (.head _) _ hv).bind fun c hc => ?_
    refine (ih hrest ?_ ?_).mono fun d hd => .cons hc hd
    · exact fun f hf => hattr f (.tail _ hf)
    · exact fun f hf => hform f (.tail _ hf)

end

namespace Faithful

variable (hm : Faithful s lib m) {F D : UInt64 → Prop} {R : UInt64 → Nat → Prop}

include hm

lemma own_arm_plain {name : String} {p : UnionPlan} (hplan : s.plan? name = some p) (hsound : p.Sound)
    {a : ArmPlan} (ha : a ∈ p.arms) {vs : Fields} {disc : Value}
    (hbuilt : s.Built (.object (.arm name a.attr) (vs ++ [(p.discField, disc)])))
    (hvs : vs.map (·.1) = (s.payload a).map (·.1)) {k : Int} (hk : disc.wholeNumber? = some k)
    (pack : Value → Write) (n : Nat) :
    let owner := Value.object (.arm name a.attr) (vs ++ [(p.discField, disc)])
    let e : Encoder := ⟨m.conduct, pack, m.elements⟩
    ∃ reason, Pack.own (m.plain s lib) e n owner =
      (if p.select? k = some a then pure () else Write.refuse m.conduct disc reason) >>= fun _ =>
        Pack.slots m e owner
          ((s.armBodyOf lib p a).disc :: (s.armBodyOf lib p a).payload.toList) := by
  intro owner e
  have hnames : (vs ++ [(p.discField, disc)]).map (·.1) = (s.payload a).map (·.1) ++ [p.discField] := by
    simp [hvs]
  have hkeeps := hm.arm name p hplan a ha
  have hdisc : m.attr owner (s.armBodyOf lib p a).disc.attr = .ok disc :=
    hkeeps.attr _ hnames (p.discField, disc) (by simp)
  obtain ⟨reason, hcheck⟩ := hm.check_eq hplan hsound ha e hnames hk
  refine ⟨reason, ?_⟩
  rw [own_arm (hkeeps.plain s lib) (hm.body_arm_plain hplan ha),
    ← hm.arm_plain hplan ha hnames (fun f hf => hbuilt.field hf) (e := e) rfl fun _ _ _ => rfl, Pack.arm]
  simp only [hdisc, owner, hcheck, e]

lemma writes_packAs (hs : s.Sound)
    (hR : ∀ bits n, P bits → R bits n → Number.narrow? bits.toNat = some n)
    (h : s.InstanceLaid R key v cells) (hfloats : v.AllFloats P) (hdepth : v.depth < n) :
    Writes ((m.plain s lib).packAs m.conduct n v) cells := by
  induction n generalizing key v cells with
  | zero => omega
  | succ n ih =>
    have hbuilt := h.built
    rw [Module.packAs]
    -- fields of an instance are written one level below it
    have hslots : ∀ {key : ClassKey} {vs : Fields} owner slots fields us c,
        (Value.object key vs).AllFloats P → (Value.object key vs).depth < n + 1 → us ⊆ vs →
        slots.map (fun x : Slot => (x.attr, x.form)) = fields → (∀ f ∈ fields, f.2.Regular) →
        (∀ f ∈ us, m.attr owner f.1 = .ok f.2) → s.LaysAll R fields us c →
        Writes (Pack.slots m ⟨m.conduct, (m.plain s lib).packAs m.conduct n, m.elements⟩ owner
          slots) c := by
      intro key vs owner slots fields us c hall hdeep hsub hfields hregular hattr hlaid
      refine writes_slots hfields hattr
        (I := fun _ w d => Writes ((m.plain s lib).packAs m.conduct n w) d)
        (R := fun bits n => Number.narrow? bits.toNat = some n) ?_ ?_
      · intro f hf v d hv
        exact Form.Regular.writes hm.conduct_regular (fun _ => rfl) (fun _ _ h => h) (hregular f hf) hv
      · refine hlaid.imp fun f _ g hg d hd _ => hd.imp (Value.allFloats_object.1 hall g (hsub hg)) ?_ hR
        intro key' w c hw hwfloats hwdepth _ _
        have hlt := Value.depth_lt_object key (hsub hg)
        exact ih hw hwfloats (by omega)
    cases h with
    | @record name fields vs _ hfields hlaid =>
      obtain ⟨decls, rfl, hbody⟩ := hm.plain_record hfields
      have hkeeps := (hm.record name _ hfields).1
      rw [own_record (hkeeps.plain s lib) hbody, slots_plain]
      exact hslots _ _ _ vs cells hfloats hdepth (List.Subset.refl vs) (slotsOf_fields decls)
        (hs.fields_regular hfields) (hkeeps.attr vs hlaid.names) hlaid
    | @union name p a disc k vs c d hplan hdisc hk ha hlaid =>
      have harm := UnionPlan.mem_of_select? ha
      have hattr := (hm.arm name p hplan a harm).attr (vs ++ [(p.discField, disc)])
        (by simp [hlaid.names])
      obtain ⟨reason, hown⟩ := hm.own_arm_plain hplan (hs.plans name p hplan).1 harm hbuilt hlaid.names hk
        ((m.plain s lib).packAs m.conduct n) (n + 1)
      have hsub : (p.discField, disc) :: vs ⊆ vs ++ [(p.discField, disc)] := by simp
      rw [if_pos ha] at hown
      refine hown ▸ hslots _ _ _ ((p.discField, disc) :: vs) (c ++ d) hfloats hdepth hsub
        (armBodyOf_slots _ p a) (forall_mem_cons.2 ⟨hs.formOf_regular _, hs.payload_regular a⟩)
        (fun f hf => hattr f (hsub hf)) (.cons hdisc hlaid)

lemma writes_pack (hs : s.Sound)
    (hR : ∀ bits n, P bits → R bits n → Number.narrow? bits.toNat = some n)
    (h : s.InstanceLaid R key v cells) (hfloats : v.AllFloats P) (hdepth : v.depth < n) :
    Writes (m.pack n v) cells := by
  rw [hm.pack_plain h.built hdepth hdepth]
  exact hm.writes_packAs hs hR h hfloats hdepth

lemma puts_packAs (hs : s.Sound) (hF : Narrowed F R) (n : Nat) (h : s.HasInstance F D key v) :
    Puts ((m.plain s lib).packAs m.conduct n v) (s.InstanceLaid R key v) := by
  induction n generalizing key v with
  | zero => exact Puts.throw _
  | succ n ih =>
    have hbuilt := Schema.built_of_typed (.cls h)
    rw [Module.packAs]
    have hslots : ∀ owner slots fields vs, slots.map (fun x : Slot => (x.attr, x.form)) = fields →
        (∀ f ∈ fields, f.2.Regular) → (∀ f ∈ vs, m.attr owner f.1 = .ok f.2) →
        s.TypesAll F D fields vs →
        Puts (Pack.slots m ⟨m.conduct, (m.plain s lib).packAs m.conduct n, m.elements⟩ owner slots)
          (s.LaysAll R fields vs) := by
      intro owner slots fields vs hfields hregular hattr htyped
      refine puts_slots hfields hattr (fun f hf v hv => ?_) htyped
      exact Form.Regular.puts hm.conduct_regular (fun _ => rfl) (fun key v hv => ih hv) hF
        (hregular f hf) hv
    cases h with
    | @record name fields vs hfields htyped =>
      obtain ⟨decls, rfl, hbody⟩ := hm.plain_record hfields
      have hkeeps := (hm.record name _ hfields).1
      rw [own_record (hkeeps.plain s lib) hbody, slots_plain]
      exact (hslots _ _ _ vs (slotsOf_fields decls) (hs.fields_regular hfields)
        (hkeeps.attr vs htyped.names) htyped).mono fun c hc => .record hfields hc
    | @union name p a disc vs hplan harm hdisc htyped =>
      have hattr := (hm.arm name p hplan a harm).attr (vs ++ [(p.discField, disc)])
        (by simp [htyped.names])
      obtain ⟨hsound, hnumeric⟩ := hs.plans name p hplan
      obtain ⟨k, hk⟩ := hnumeric.exists_number hdisc
      obtain ⟨reason, hown⟩ := hm.own_arm_plain hplan hsound harm hbuilt htyped.names hk
        ((m.plain s lib).packAs m.conduct n) (n + 1)
      have hsub : (p.discField, disc) :: vs ⊆ vs ++ [(p.discField, disc)] := by simp
      have hchecked : Puts (if p.select? k = some a then pure () else Write.refuse m.conduct disc reason)
          fun c => c = [] ∧ p.select? k = some a := by
        split_ifs with hselect
        · exact Puts.pure ⟨rfl, hselect⟩
        · exact puts_refuse _ _ _
      refine hown ▸ hchecked.bind ?_
      rintro _ ⟨rfl, hselect⟩
      refine (hslots _ _ _ ((p.discField, disc) :: vs) (armBodyOf_slots _ p a)
        (forall_mem_cons.2 ⟨hs.formOf_regular _, hs.payload_regular a⟩)
        (fun f hf => hattr f (hsub hf)) (.cons hdisc htyped)).mono fun cells hcells => ?_
      rw [nil_append]
      cases hcells with
      | cons hd hvs => exact .union hplan hd hk hselect hvs

lemma puts_pack (hs : s.Sound) (hF : Narrowed F R) (h : s.HasInstance F D key v)
    (hdepth : v.depth < n) :
    Puts (m.pack n v) (s.InstanceLaid R key v) := by
  rw [hm.pack_plain (Schema.built_of_typed (.cls h)) hdepth hdepth]
  exact hm.puts_packAs hs hF n h

end Faithful

end Xdr
