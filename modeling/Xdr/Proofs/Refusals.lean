import Xdr.Proofs.Codec.Entry
import Xdr.Proofs.Shapes

/-!
# What encoding refuses

A value of the right shape is encoded exactly when it is within the limits of the wire.
-/

namespace Xdr

open Wire List

variable {v : Value} {name : String} {k n : Int} {vs : Fields} {t : TypeInfo}
  {e : EnumType}

structure Limits.Covered (L : Limits) (E : Fault → Prop) : Prop where
  encode : ∀ f, E (.encode f)
  number : ∀ {b n}, L.number b n → Number.isWritable n = false → E .badValue
  variant : ∀ {e n}, L.variant e n → Number.isWritable n = false → E .badValue
  length : ∀ {bound n}, L.length bound n → Number.isWritable n = false → E .badValue

lemma exists_integer {b : Builtin} (hb : b ≠ .bool) (hrange : b.range?.isSome) (c : Conduct)
    (v : Value) : ∃ width, Write.scalar c b v = Write.integer c b width v := by
  cases b with
  | int | uint => exact ⟨4, rfl⟩
  | hyper | uhyper => exact ⟨8, rfl⟩
  | bool => exact absurd rfl hb
  | _ => cases hrange

namespace Faithful

variable {s : Schema} {lib : Imports.Support} {m : Module} (hm : Faithful s lib m)
  {E : Fault → Prop}

include hm

lemma text_number (hk : v.wholeNumber? = some k) :
    (∃ shown, m.text v = .ok shown) ∨
      v = .int k ∧ Number.isWritable k = false ∧ m.text v = .error .badValue := by
  cases v with
  | int n =>
    cases hk
    rw [Module.text, Module.textAt]
    cases Number.isWritable k with
    | true => exact .inl ⟨_, rfl⟩
    | false => exact .inr ⟨rfl, rfl, rfl⟩
  | bool b => exact .inl ⟨_, rfl⟩
  | member enum variant n =>
    rw [Module.text, Module.textAt]
    simp only [hm.unspoilt]
    exact .inl ⟨_, rfl⟩
  | _ => cases hk

lemma decides_refuse (hE : ∀ f, E (.encode f)) (hk : v.wholeNumber? = some k)
    (hn : v = .int k → Number.isWritable k = false → E .badValue) (reason : String → EncodeFault)
    {P : Prop} (hP : ¬P) : Decides E (Write.refuse m.conduct v reason) P := by
  have htext : m.conduct.text v = m.text v := rfl
  unfold Write.refuse
  rw [htext]
  obtain ⟨shown, hshown⟩ | ⟨hint, hlong, hshown⟩ := hm.text_number hk
  · rw [hshown]
    exact decides_fail hE _ hP
  · rw [hshown]
    exact .throw (hn hint hlong) hP

lemma variantOf_eq_search (e : EnumClass) (hn : v.wholeNumber? = some n)
    (hother : ∀ variant k, v ≠ .member e.name variant k) :
    m.variantOf e v = (do
      match ← e.search fun k => .ok (v.isNumber k) with
      | some variant => return variant
      | none =>
        let _ ← m.text v
        throw e.missing) := by
  unfold Module.variantOf
  rw [hm.hashable_number hn]
  cases v with
  | member enum variant k =>
    have hname : ¬enum = e.name := fun h => hother variant k (h ▸ rfl)
    exact if_neg hname
  | _ => rfl

lemma variantOf_eq (e : EnumClass) (hn : v.wholeNumber? = some n)
    (hother : ∀ variant k, v ≠ .member e.name variant k) :
    m.variantOf e v =
      match e.members.find? fun x => n == x.2 with
      | some x => .ok (.member e.name x.1 x.2)
      | none => m.text v >>= fun _ => .error e.missing := by
  rw [hm.variantOf_eq_search e hn hother, isNumber_eq hn, search_eq_find]
  cases e.members.find? fun x => n == x.2 <;> rfl

lemma variantOf_cases (ht : s.find? e.name = some t) (he : t.definition = .enum e)
    (hv : s.Integral v n) :
    (∃ variant, (variant, n) ∈ e.variants ∧
      m.variantOf ⟨e.name, e.variants, []⟩ v = .ok (.member e.name variant n)) ∨
    n ∉ e.values ∧ m.variantOf ⟨e.name, e.variants, []⟩ v = .error .badValue := by
  by_cases hown : ∃ variant k, v = .member e.name variant k
  · obtain ⟨variant, k, rfl⟩ := hown
    refine .inl ⟨variant, ?_⟩
    generalize hname : e.name = name at hv ht
    cases hv with
    | @variant t' e' _ _ ht' he' hmem =>
      cases ht.symm.trans ht'
      cases he.symm.trans he'
      exact ⟨hmem, hm.conduct_regular.variant ⟨e.name, e.variants, []⟩ _ _⟩
  · have hother : ∀ variant k, v ≠ .member e.name variant k := fun variant k h => hown ⟨variant, k, h⟩
    rw [hm.variantOf_eq _ hv.wholeNumber? hother]
    dsimp only
    cases hfind : e.variants.find? fun x => n == x.2 with
    | some x =>
      obtain rfl : n = x.2 := by simpa using find?_some hfind
      exact .inl ⟨x.1, mem_of_find?_eq_some hfind, rfl⟩
    | none =>
      refine .inr ⟨?_, ?_⟩
      · rintro hmem
        obtain ⟨x, hx, rfl⟩ := mem_map.1 hmem
        simpa using find?_eq_none.1 hfind x hx
      · obtain ⟨shown, hshown⟩ | ⟨-, -, hshown⟩ := hm.text_number hv.wholeNumber? <;> rw [hshown] <;> rfl

lemma decides_enum (hE : ∀ f, E (.encode f)) (ht : s.find? e.name = some t)
    (he : t.definition = .enum e) (hfits : ∀ x ∈ e.variants, -(2 ^ 31) ≤ x.2 ∧ x.2 ≤ 2 ^ 31 - 1)
    (hv : s.Integral v n) (hn : Number.isWritable n = false → E .badValue) :
    Decides E (Write.enum m.conduct ⟨e.name, e.variants, []⟩ v) (n ∈ e.values) := by
  have hvariant : m.conduct.variant = m.variantOf := rfl
  unfold Write.enum
  rw [hvariant]
  obtain ⟨variant, hmem, hfound⟩ | ⟨hmissing, hfound⟩ := hm.variantOf_cases ht he hv
  · rw [hfound]
    have hword := hfits _ hmem
    have hsigned : FitsSigned 4 n := by
      simp only [FitsSigned]
      omega
    exact (writes_variant hsigned).decides (mem_map_of_mem hmem)
  · rw [hfound]
    exact hm.decides_refuse hE hv.wholeNumber? (fun _ => hn) _ hmissing

variable {L : Limits} (hL : L.Covered E)
  (hfits : ∀ t ∈ s.types, ∀ e, t.definition = .enum e → ∀ x ∈ e.variants, -(2 ^ 31) ≤ x.2 ∧ x.2 ≤ 2 ^ 31 - 1)
  {T T' : ClassKey → Value → Prop} {pack : Value → Write}

include hL hfits

lemma decides_form {form : Form} (h : FormShaped s L T form v)
    (hpack : ∀ key w, T key w → w.depth ≤ v.depth → Decides E (pack w) (T' key w)) :
    Decides E (form.write ⟨m.conduct, pack, m.elements⟩ v) (FormShaped s .wire T' form v) := by
  have hE := hL.encode
  induction h with
  | @integer b v n hb hrange hv hn =>
    obtain ⟨width, hwidth⟩ := exists_integer hb hrange m.conduct v
    obtain ⟨⟨low, high⟩, hbounds⟩ := Option.isSome_iff_exists.1 hrange
    rw [Form.write, hwidth]
    refine (decides_integer hE hm.conduct_regular hv.integer? hbounds (hL.number hn)).congr ?_
    rw [formShaped_integer_iff hb hrange hv]
    simp [Limits.wire, hbounds]
  | bool b => exact (writes_bool hm.conduct_regular b).decides (.bool b)
  | @enum t e v n ht he hv hn =>
    rw [formShaped_enum_iff ht he hv]
    exact hm.decides_enum hE ht he (hfits t (Schema.mem_of_find? ht).1 e he) hv (hL.variant hn)
  | @cls key v hv =>
    refine (hpack key v hv le_rfl).congr ⟨.cls, fun h => ?_⟩
    cases h with
    | cls h => exact h
  | fixedOpaque hstorage hn =>
    refine (decides_fixedOpaque hE _ _ (Storage.lies hstorage)).congr ⟨fun h => .fixedOpaque hstorage h, fun h => ?_⟩
    cases h with
    | fixedOpaque _ h => exact h
  | varOpaque hstorage hn =>
    refine (decides_varOpaque hE _ (hL.length hn) (Storage.lies hstorage)).congr
      ⟨fun h => .varOpaque hstorage h, fun h => ?_⟩
    cases h with
    | varOpaque _ h => exact h
  | string hn =>
    refine (decides_varOpaque hE _ (hL.length hn) (by decide)).congr ⟨fun h => .string h, fun h => ?_⟩
    cases h with
    | string h => exact h
  | absent => exact (writes_flag false).decides .absent
  | @present item v hnull hv ih =>
    rw [Form.write, Write.optional, hnull, if_neg (by simp)]
    refine ((writes_flag true).decides True.intro |>.bind fun _ => ih hpack).congr ?_
    refine ⟨fun h => .present hnull h.2, fun h => ⟨True.intro, ?_⟩⟩
    cases h with
    | absent => cases hnull
    | present _ h => exact h
  | @fixedArray n item items hn hitems ih =>
    show Decides E (Write.fixedArray n (some items) _) _
    refine (decides_fixedArray hE (fun w hw => ih w hw fun key u hu hdepth => ?_) n).congr ?_
    · exact hpack key u hu (hdepth.trans (Value.depth_lt_list hw).le)
    · refine ⟨fun h => .fixedArray h.1 h.2, fun h => ?_⟩
      cases h with
      | fixedArray hlength h => exact ⟨hlength, h⟩
  | @array bound item items hn hitems ih =>
    show Decides E (Write.array bound (some items) _) _
    refine (decides_array hE (fun w hw => ih w hw fun key u hu hdepth => ?_) bound
      (hL.length hn)).congr ?_
    · exact hpack key u hu (hdepth.trans (Value.depth_lt_list hw).le)
    · refine ⟨fun h => .array h.1 h.2, fun h => ?_⟩
      cases h with
      | array hlength h => exact ⟨hlength, h⟩

lemma decides_slots {owner : Value} {slots : List Slot} {fields : List (String × Form)}
    (hslots : slots.map (fun x => (x.attr, x.form)) = fields)
    (hattr : ∀ f ∈ vs, m.attr owner f.1 = .ok f.2) (h : FieldsShaped s L T fields vs)
    (hpack : ∀ f ∈ vs, ∀ key w, T key w → w.depth ≤ f.2.depth → Decides E (pack w) (T' key w)) :
    Decides E (Pack.slots m ⟨m.conduct, pack, m.elements⟩ owner slots)
      (FieldsShaped s .wire T' fields vs) := by
  induction h generalizing slots with
  | nil =>
    obtain rfl := map_eq_nil_iff.1 hslots
    exact Writes.pure.decides .nil
  | cons hv _ ih =>
    obtain ⟨slot, rest, rfl, hslot, hrest⟩ := map_eq_cons_iff.1 hslots
    cases hslot
    rw [forall_mem_cons] at hattr hpack
    simp only [Pack.slots, hattr.1]
    refine ((hm.decides_form hL hfits hv hpack.1).bind fun _ => ih hrest hattr.2 hpack.2).congr ?_
    refine ⟨fun h => .cons h.1 h.2, fun h => ?_⟩
    cases h with
    | cons hv hvs => exact ⟨hv, hvs⟩

omit hm hfits in
lemma badValue_of_disc {shape : Shape} (hshape : s.Numeric shape)
    (hdisc : FormShaped s L T (s.formOf shape) (.int k)) (hlong : Number.isWritable k = false) :
    E .badValue := by
  obtain ⟨b, low, high, -, hform⟩ | ⟨e, hform⟩ := hshape.form_cases <;> rw [hform] at hdisc
  · cases hdisc with
    | integer _ _ hv hn =>
      cases hv
      exact hL.number hn hlong
  · cases hdisc with
    | enum _ _ hv hn =>
      cases hv
      exact hL.variant hn hlong

lemma decides_arm (hs : s.Sound) {p : UnionPlan} (hplan : s.plan? name = some p) {a : ArmPlan}
    (ha : a ∈ p.arms) {disc : Value} (hdisc : FormShaped s L T (s.formOf p.disc) disc)
    (hk : disc.wholeNumber? = some k) (h : FieldsShaped s L T (s.payload a) vs)
    (hbuilt : s.Built (.object (.arm name a.attr) (vs ++ [(p.discField, disc)]))) (n : Nat)
    (hpack : ∀ f ∈ vs ++ [(p.discField, disc)], ∀ key w, T key w → w.depth ≤ f.2.depth →
      Decides E (pack w) (T' key w)) :
    Decides E (Pack.own (m.plain s lib) ⟨m.conduct, pack, m.elements⟩ n
        (.object (.arm name a.attr) (vs ++ [(p.discField, disc)])))
      (p.Admits a k ∧ FormShaped s .wire T' (s.formOf p.disc) disc ∧
        FieldsShaped s .wire T' (s.payload a) vs) := by
  have hattr := (hm.arm name p hplan a ha).attr (vs ++ [(p.discField, disc)]) (by simp [h.names])
  obtain ⟨hsound, hnumeric⟩ := hs.plans name p hplan
  obtain ⟨reason, hown⟩ := hm.own_arm_plain hplan hsound ha hbuilt h.names hk pack n
  have hchecked : Decides E (if p.select? k = some a then pure () else
      Write.refuse m.conduct disc reason) (p.Admits a k) := by
    split_ifs with hselect
    · exact Writes.pure.decides (hsound.select?_iff_admits.1 hselect).2
    · refine hm.decides_refuse hL.encode hk (fun hint => ?_) _ fun hadmits =>
        hselect (hsound.select?_iff_admits.2 ⟨ha, hadmits⟩)
      exact badValue_of_disc hL hnumeric (hint ▸ hdisc)
  have hsub : (p.discField, disc) :: vs ⊆ vs ++ [(p.discField, disc)] := by simp
  have hslots := hm.decides_slots hL hfits (armBodyOf_slots lib p a)
    (fun f hf => hattr f (hsub hf)) (.cons hdisc h) fun f hf => hpack f (hsub hf)
  refine hown ▸ (hchecked.bind fun _ => hslots).congr (and_congr_right fun _ => ?_)
  refine ⟨fun h => ?_, fun h => .cons h.1 h.2⟩
  cases h with
  | cons hdisc hvs => exact ⟨hdisc, hvs⟩

lemma decides_packAs (hs : s.Sound) {n : Nat} {key : ClassKey} (h : s.InstanceShaped L key v)
    (hdepth : v.depth < n) :
    Decides E ((m.plain s lib).packAs m.conduct n v) (s.InstanceShaped .wire key v) := by
  induction n generalizing key v with
  | zero => omega
  | succ n ih =>
    have hbelow : ∀ {key : ClassKey} {vs : Fields},
        (Value.object key vs).depth < n + 1 → ∀ f ∈ vs, ∀ key w, s.InstanceShaped L key w →
        w.depth ≤ f.2.depth →
        Decides E ((m.plain s lib).packAs m.conduct n w) (s.InstanceShaped .wire key w) := by
      intro key vs hdeep f hf _ w hw hle
      have hlt := Value.depth_lt_object key hf
      exact ih hw (by omega)
    have hbuilt := Schema.built_of_shaped (.cls h)
    rw [Module.packAs]
    cases h with
    | @record name fields vs hfields h =>
      obtain ⟨decls, rfl, hbody⟩ := hm.plain_record hfields
      have hkeeps := (hm.record name _ hfields).1
      rw [own_record (hkeeps.plain s lib) hbody, slots_plain,
        Schema.instanceShaped_record_iff hfields]
      exact hm.decides_slots hL hfits (slotsOf_fields decls) (hkeeps.attr vs h.names) h (hbelow hdepth)
    | @union name p a disc k vs hplan ha hdisc hk _ h =>
      rw [Schema.instanceShaped_arm_iff hplan ha hk]
      exact hm.decides_arm hL hfits hs hplan ha hdisc hk h hbuilt (n + 1) (hbelow hdepth)

end Faithful

lemma Limits.covered_free : Limits.free.Covered fun f => (∃ g, f = .encode g) ∨ f = .badValue :=
  ⟨fun f => .inl ⟨f, rfl⟩, fun _ _ => .inr rfl, fun _ _ => .inr rfl, fun _ _ => .inr rfl⟩

lemma Limits.covered_legible : Limits.legible.Covered fun f => ∃ g, f = .encode g := by
  have hlegible : ∀ {n : Int}, Number.isWritable n → Number.isWritable n = false →
      ∃ g, Fault.badValue = .encode g := fun hn hlong => Bool.noConfusion (hn.symm.trans hlong)
  exact ⟨fun f => ⟨f, rfl⟩, hlegible, hlegible, hlegible⟩

lemma Module.encode_outcome (m : Module) (hv : ∀ text, v ≠ .str text) :
    (m.pack (v.depth + 2) v).outcome #[] = (m.encode v).map fun _ => () := by
  have hencode : m.encode v = m.encodeInstance v := by
    cases v with
    | str text => exact absurd rfl (hv text)
    | _ => rfl
  rw [hencode, encodeInstance, encodeRun, Write.outcome]
  cases m.pack (v.depth + 2) v #[] with
  | mk result out => cases result <;> rfl

namespace Generates

variable {spec : Ast.Specification} {c : Config} {s : Schema} {m : Module}
  (hgen : Generates spec c s m) (hnames : s.Unambiguous)

include hgen hnames

lemma decides_pack {L : Limits} {E : Fault → Prop} (hL : L.Covered E) (h : s.Shaped L name v) :
    Decides E (m.pack (v.depth + 2) v) (s.Shaped .wire name v) := by
  obtain ⟨lib, -, hm⟩ := hgen.faithful hnames
  have hfits := accepted_enums_fit hgen.schema
  cases h with
  | @variant t e variant n ht he hmem =>
    have hword := hfits t (Schema.mem_of_find? ht).1 e he _ hmem
    have hsigned : FitsSigned 4 n := by
      simp only [FitsSigned]
      omega
    rw [Module.pack, Pack.own, hm.unspoilt, if_neg (by simp)]
    exact (writes_variant hsigned).decides (.variant ht he hmem)
  | ofClass h =>
    have hplain := hm.pack_plain (Schema.built_of_shaped (.cls h)) (Nat.lt_add_of_pos_right two_pos)
      (Nat.lt_succ_self v.depth)
    obtain ⟨key, vs, rfl⟩ := h.exists_object
    rw [Schema.shaped_object_iff, hplain]
    exact hm.decides_packAs hL hfits hgen.sound h (Nat.lt_succ_self _)

lemma encode_cases {L : Limits} {E : Fault → Prop} (hL : L.Covered E) (h : s.Shaped L name v) :
    s.Shaped .wire name v ∧ (∃ bytes, m.encode v = .ok bytes) ∨
      ¬s.Shaped .wire name v ∧ ∃ f, E f ∧ m.encode v = .error f := by
  have hdecides := hgen.decides_pack hnames hL h
  have hplain : ∀ text, v ≠ .str text := by
    rintro text rfl
    cases h with
    | ofClass h => cases h
  by_cases hwire : s.Shaped .wire name v
  · have hok := hdecides.passes hwire #[]
    rw [m.encode_outcome hplain] at hok
    cases hbytes : m.encode v with
    | ok bytes => exact .inl ⟨hwire, bytes, rfl⟩
    | error f =>
      rw [hbytes] at hok
      cases hok
  · obtain ⟨f, hf, hfail⟩ := hdecides.refuses hwire #[]
    rw [m.encode_outcome hplain] at hfail
    cases hbytes : m.encode v with
    | ok bytes =>
      rw [hbytes] at hfail
      cases hfail
    | error g =>
      rw [hbytes] at hfail
      cases hfail
      exact .inr ⟨hwire, f, hf, rfl⟩

end Generates

/-- A value of the right shape is encoded exactly when it can be represented: each integer is in the
range of its type, each number of an enum is one of its variants, each length is as declared, and each
discriminant is one of its arm. A value that cannot be represented is refused as such. Only with a
number or a length of too many digits for a message it is the message that fails. -/
theorem encode_iff_representable {spec : Ast.Specification} {c : Config} {s : Schema} {m : Module}
    (hgen : Generates spec c s m) (hnames : s.Unambiguous) {name : String} {v : Value}
    (hv : s.Shaped .free name v) :
    ((∃ bytes, m.encode v = .ok bytes) ↔ s.Shaped .wire name v) ∧
    (¬s.Shaped .wire name v → (∃ f, m.encode v = .error (.encode f)) ∨
      m.encode v = .error .badValue ∧ ¬s.Shaped .legible name v) := by
  obtain ⟨hwire, bytes, hbytes⟩ | ⟨hwire, f, hf, hfail⟩ := hgen.encode_cases hnames Limits.covered_free hv
  · exact ⟨iff_of_true ⟨bytes, hbytes⟩ hwire, fun hnot => absurd hwire hnot⟩
  · refine ⟨iff_of_false (fun ⟨bytes, hbytes⟩ => ?_) hwire, fun _ => ?_⟩
    · cases hbytes.symm.trans hfail
    · obtain ⟨g, rfl⟩ | rfl := hf
      · exact .inl ⟨g, hfail⟩
      · refine .inr ⟨hfail, fun hlegible => ?_⟩
        obtain ⟨hwire', -⟩ | ⟨-, g, ⟨f, rfl⟩, hother⟩ :=
          hgen.encode_cases hnames Limits.covered_legible hlegible
        · exact hwire hwire'
        · cases hfail.symm.trans hother

namespace Entries

def color : EnumType := ⟨"color", [("RED", 1), ("BLUE", 2)]⟩

def red : ArmPlan := ⟨"RED", [1], ⟨⟨.builtin .opaqueBytes, .fixed, some 3⟩, some "mix"⟩, false⟩

def paint : UnionPlan :=
  ⟨.scalar (.named "color"), "hue", 4, some color,
    [red, ⟨"default", [], ⟨.scalar (.builtin .void), none⟩, true⟩], [1]⟩

def coat (mix : List UInt8) (hue : Int) : Value :=
  .object (.arm "paint" "RED") [("mix", .bytes mix .fixed), ("hue", .int hue)]

lemma coat_shaped_iff {L : Limits} (mix : List UInt8) (hue : Int) :
    schema.Shaped L "paint" (coat mix hue) ↔
      L.arm paint red hue ∧ L.variant color hue ∧ L.count 3 mix.length := by
  have hplan : schema.plan? "paint" = some paint := by decide +kernel
  have hcolor : (schema.find? color.name).map (·.definition) = some (.enum color) := by decide +kernel
  obtain ⟨t, ht, he⟩ := Option.map_eq_some_iff.1 hcolor
  have hdisc : schema.formOf paint.disc = .enum (.enum ⟨color.name, color.variants, []⟩) := by
    decide +kernel
  have hpayload : schema.payload red = [("mix", .fixedOpaque 3)] := by decide +kernel
  have hmix : FieldsShaped schema L (schema.InstanceShaped L) [("mix", .fixedOpaque 3)]
      [("mix", .bytes mix .fixed)] ↔ L.count 3 mix.length := by
    refine ⟨fun h => ?_, fun h => .cons (.fixedOpaque (by decide) h) .nil⟩
    cases h with
    | cons h _ =>
      cases h with
      | fixedOpaque _ h => exact h
  have hcoat : schema.InstanceShaped L (.type "paint")
      (.object (.arm "paint" red.attr) ([("mix", .bytes mix .fixed)] ++ [(paint.discField, .int hue)])) ↔ _ :=
    Schema.instanceShaped_arm_iff hplan (.head _) rfl
  rw [hdisc, formShaped_enum_iff ht he (.int hue), hpayload, hmix] at hcoat
  rw [coat, Schema.shaped_object_iff]
  exact hcoat

end Entries

/-- A red coat is encoded with a mix of three bytes. It is refused with a hue of another arm, with a
hue that is none, and with a mix of four bytes. -/
theorem encode_iff_representable_coat :
    (∃ bytes, Entries.loaded.encode (Entries.coat [7, 8, 9] 1) = .ok bytes) ∧
    (∃ f, Entries.loaded.encode (Entries.coat [7, 8, 9] 2) = .error (.encode f)) ∧
    (∃ f, Entries.loaded.encode (Entries.coat [7, 8, 9] 5) = .error (.encode f)) ∧
    ∃ f, Entries.loaded.encode (Entries.coat [6, 7, 8, 9] 1) = .error (.encode f) := by
  have hfree : ∀ mix hue, Entries.schema.Shaped .free "paint" (Entries.coat mix hue) := fun mix hue =>
    (Entries.coat_shaped_iff mix hue).2 ⟨trivial, trivial, trivial⟩
  have hrefused : ∀ mix hue, Number.isWritable hue →
      ¬Entries.schema.Shaped .wire "paint" (Entries.coat mix hue) →
      ∃ f, Entries.loaded.encode (Entries.coat mix hue) = .error (.encode f) := by
    intro mix hue hlegible hwire
    refine ((encode_iff_representable Entries.generates Entries.schema_unambiguous
      (hfree mix hue)).2 hwire).resolve_right fun h => h.2 ?_
    exact (Entries.coat_shaped_iff mix hue).2 ⟨trivial, hlegible, trivial⟩
  have hwire : ∀ mix hue, Entries.schema.Shaped .wire "paint" (Entries.coat mix hue) ↔
      Entries.paint.Admits Entries.red hue ∧ hue ∈ Entries.color.values ∧ (mix.length : Int) = 3 :=
    Entries.coat_shaped_iff
  refine ⟨?_, hrefused _ _ (by decide +kernel) ?_, hrefused _ _ (by decide +kernel) ?_,
    hrefused _ _ (by decide +kernel) ?_⟩
  · refine (encode_iff_representable Entries.generates Entries.schema_unambiguous (hfree _ _)).1.2 ?_
    rw [hwire]
    decide
  all_goals
    rw [hwire]
    decide

end Xdr
