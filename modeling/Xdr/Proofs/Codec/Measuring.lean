import Xdr.Proofs.Codec.Chains

/-!
# Sizes of layouts

A layout takes whole units of four bytes. Where a type has a fixed size, every layout takes as many
bytes; and the size that a value tells is the number of its cells.
-/

namespace Xdr

open List Schema Cells

open Xdr.Measure (elements own slots)

variable {v : Value} {c : Cells} {I : ClassKey → Value → Cells → Prop} {n : Nat} {s : Schema}
  {lib : Imports.Support} {m : Module} {R : UInt64 → Nat → Prop} {key : ClassKey} {base : Base}
  {vs : Fields} {items : List Value} {shape : Shape} {decls : List (String × Decl)}
  {fields : List (String × Form)} {item : Form} {length : Option Nat}

lemma dvd_of_scalar {b : Builtin} (h : ScalarLaid R b v c) : 4 ∣ c.length := by
  cases h <;> simp [Wire.bigEndian_length, Wire.signedBytes_length]

lemma dvd_of_items
    (hitem : ∀ v ∈ items, ∀ d : Cells, FormLaid I R item v d → 4 ∣ d.length)
    (h : ItemsLaid I R item items c) : 4 ∣ c.length := by
  induction items generalizing c with
  | nil =>
    cases h
    exact dvd_zero 4
  | cons v rest ih =>
    cases h with
    | cons hv hrest =>
      rw [length_append]
      exact dvd_add (hitem v (.head _) _ hv)
        (ih (fun w hw => hitem w (mem_cons_of_mem v hw)) hrest)

lemma dvd_of_form {form : Form} (h : FormLaid (fun _ _ d => 4 ∣ d.length) R form v c) :
    4 ∣ c.length := by
  have hbehind : ∀ {n : Nat} {d : Cells}, 4 ∣ d.length → 4 ∣ (Cells.word n ++ d).length := by
    intro n d hd
    rw [length_append, length_word]
    exact dvd_add (dvd_refl 4) hd
  induction form generalizing v c with
  | scalar b =>
    cases h with
    | scalar h => exact dvd_of_scalar h
  | enum mention =>
    cases h with
    | enum => simp
  | cls mention =>
    cases h with
    | cls h => exact h
  | length bound => cases h
  | fixedOpaque n =>
    cases h with
    | fixedOpaque => exact dvd_padded _
  | varOpaque bound =>
    cases h with
    | varOpaque => exact hbehind (dvd_padded _)
  | string bound =>
    cases h with
    | string => exact hbehind (dvd_padded _)
  | flag => cases h
  | optional item ih =>
    cases h with
    | absent => simp
    | present _ h => exact hbehind (ih h)
  | fixedArray n item ih =>
    cases h with
    | fixedArray _ h => exact dvd_of_items (fun v _ d hd => ih hd) h
  | array bound item ih =>
    cases h with
    | array _ h => exact hbehind (dvd_of_items (fun v _ d hd => ih hd) h)

lemma dvd_of_fields (h : FieldsLaid I R fields vs c)
    (hform : ∀ f ∈ fields, ∀ g ∈ vs, ∀ d : Cells, FormLaid I R f.2 g.2 d → 4 ∣ d.length) :
    4 ∣ c.length := by
  induction h with
  | nil => exact dvd_zero 4
  | cons hv _ ih =>
    rw [length_append]
    refine dvd_add (hform _ (.head _) _ (.head _) _ hv) (ih ?_)
    exact fun f hf g hg => hform f (.tail _ hf) g (.tail _ hg)

namespace Schema

lemma InstanceLaid.induct {P : ClassKey → Value → Cells → Prop}
    (record : ∀ {name : String} {fields : List (String × Form)} {vs : Fields}
      {c : Cells}, s.fields? name = some fields → FieldsLaid P R fields vs c →
      P (.type name) (.object (.type name) vs) c)
    (union : ∀ {name : String} {p : UnionPlan} {a : ArmPlan} {disc : Value} {k : Int}
      {vs : Fields} {c d : Cells}, s.plan? name = some p →
      FormLaid P R (s.formOf p.disc) disc c → disc.wholeNumber? = some k → p.select? k = some a →
      FieldsLaid P R (s.payload a) vs d →
      P (.type name) (.object (.arm name a.attr) (vs ++ [(p.discField, disc)])) (c ++ d))
    (h : s.InstanceLaid R key v c) : P key v c := by
  -- the instances in a value are less deep
  induction hn : v.depth using Nat.strong_induction_on generalizing key v c with
  | _ n ih =>
    have hform : ∀ {form : Form} {w : Value} {d : Cells}, w.depth < n →
        s.Lays R form w d → FormLaid P R form w d := by
      intro form w d hdepth hw
      refine hw.imp (P := fun _ => True) (Value.allFloats_of_forall (fun _ => trivial) w) ?_
        fun _ _ _ h => h
      intro key u e hu _ hdeep _ _
      exact ih u.depth (hdeep.trans_lt hdepth) hu rfl
    subst hn
    cases h with
    | record hfields hlaid =>
      exact record hfields (hlaid.imp fun f _ g hg d hd _ => hform (Value.depth_lt_object _ hg) hd)
    | @union name p a disc k vs c d hplan hdisc hk ha hlaid =>
      have hdeep : ∀ f ∈ vs ++ [(p.discField, disc)], f.2.depth < _ :=
        fun f hf => Value.depth_lt_object (.arm name a.attr) hf
      refine union hplan (hform (hdeep (p.discField, disc) (by simp)) hdisc) hk ha ?_
      exact hlaid.imp fun f _ g hg e he _ => hform (hdeep g (by simp [hg])) he

lemma InstanceLaid.dvd_length (h : s.InstanceLaid R key v c) : 4 ∣ c.length := by
  refine h.induct (P := fun _ _ c => 4 ∣ c.length) (fun _ hlaid => ?_) fun _ hdisc _ _ hlaid => ?_
  · exact dvd_of_fields hlaid fun _ _ _ _ _ hd => dvd_of_form hd
  · rw [length_append]
    exact dvd_add (dvd_of_form hdisc) (dvd_of_fields hlaid fun _ _ _ _ _ hd => dvd_of_form hd)

lemma sizeOf_fixed (hplain : base.isBytes = false)
    (h : s.sizeOf ⟨base, .fixed, length⟩ = .fixed n) :
    ∃ k, s.sizeOf (.scalar base) = .fixed k ∧ n = k * length.getD 0 := by
  have hopaque : base ≠ .builtin .opaqueBytes := by
    rintro rfl
    cases hplain
  simp only [sizeOf, Shape.sizeWith_eq, Shape.scalar, Shape.isOpaque, hopaque, hplain,
    Bool.false_eq_true, decide_false, ite_false, Shape.count] at h ⊢
  split at h
  · rename_i k hk
    cases h
    exact ⟨k, hk, rfl⟩
  · cases h

lemma sizeOf_void (hvoid : shape.isVoid = true) (h : s.sizeOf shape = .fixed n) : n = 0 := by
  obtain ⟨base, arity, length⟩ := shape
  obtain rfl : base = .builtin .void := by simpa [Shape.isVoid] using hvoid
  cases arity with
  | scalar =>
    cases h
    rfl
  | fixed =>
    obtain ⟨k, hk, rfl⟩ := sizeOf_fixed rfl h
    cases hk
    rw [Nat.zero_mul]
  | _ => cases h

def Meets (s : Schema) (key : ClassKey) (c : Cells) : Prop :=
  ∀ name t n, key = .type name → s.find? name = some t → t.size = .fixed n → c.length = n

section

variable (hsized : s.Sized) {I : ClassKey → Value → Cells → Prop}
  (hI : ∀ key v c, I key v c → s.Meets key c)

include hsized hI

lemma length_of_element (hsize : s.sizeOf (.scalar base) = .fixed n)
    (h : FormLaid I R (s.elementForm s.meant base) v c) : c.length = n := by
  cases base with
  | builtin b =>
    cases h with
    | scalar h =>
      cases h <;> cases hsize <;> simp [Wire.bigEndian_length, Wire.signedBytes_length]
  | named name =>
    obtain ⟨t, ht, hsize⟩ : ∃ t, s.find? name = some t ∧ t.size = .fixed n := by
      cases hfind : s.find? name with
      | none => simp [sizeOf, Shape.sizeWith_eq, Shape.scalar, Base.isBytes, hfind] at hsize
      | some t => exact ⟨t, rfl, by simpa [sizeOf, Shape.sizeWith_eq, Shape.scalar, Base.isBytes, hfind] using hsize⟩
    change FormLaid I R (s.formNamed name) v c at h
    by_cases henum : ∃ e, t.definition = .enum e
    · obtain ⟨e, he⟩ := henum
      rw [formNamed_of_enum ht he] at h
      cases h with
      | enum =>
        rw [hsized.enum name t e ht he] at hsize
        cases hsize
        simp
    · have hclass : s.formNamed name = .cls (.cls (.type name)) :=
        formNamed_of_not_enum fun u hu e he => by
          rw [ht] at hu
          cases hu
          exact henum ⟨e, he⟩
      rw [hclass] at h
      cases h with
      | cls h => exact hI _ _ _ h name t n rfl ht hsize

lemma length_of_items (hsize : s.sizeOf (.scalar base) = .fixed n)
    (h : ItemsLaid I R (s.elementForm s.meant base) items c) : c.length = n * items.length := by
  induction items generalizing c with
  | nil =>
    cases h
    simp
  | cons v rest ih =>
    cases h with
    | cons hv hrest =>
      rw [length_append, length_of_element hsized hI hsize hv, ih hrest, length_cons]
      ring

lemma length_of_shape (hsize : s.sizeOf shape = .fixed n) (h : FormLaid I R (s.formOf shape) v c) :
    c.length = n := by
  have hview := formOf_view s shape
  generalize s.formOf shape = form at hview h
  cases hview with
  | @fixedOpaque length =>
    cases h with
    | fixedOpaque hlength =>
      cases hsize
      rw [length_padded, Int.ofNat_inj.1 hlength]
      rfl
  | @varOpaque arity _ harity =>
    cases arity with
    | fixed => exact absurd rfl harity
    | _ => cases hsize
  | @string arity => cases arity <;> cases hsize
  | scalar hplain =>
    refine length_of_element hsized hI ?_ h
    simpa [sizeOf, Shape.sizeWith_eq, Shape.scalar, hplain] using hsize
  | optional => cases hsize
  | @fixed base length hplain =>
    cases h with
    | fixedArray hlength h =>
      obtain ⟨k, hk, rfl⟩ := sizeOf_fixed hplain hsize
      rw [length_of_items hsized hI hk h, Int.ofNat_inj.1 hlength]
  | varying => cases hsize

end

lemma length_of_fields (hsized : s.Sized) (hI : ∀ key v c, I key v c → s.Meets key c)
    (hsize : Size.sum (decls.map fun f => s.sizeOf f.2.toShape) = .fixed n)
    (h : FieldsLaid I R (s.fieldsOf decls) vs c) : c.length = n := by
  induction decls generalizing vs c n with
  | nil =>
    cases h
    cases hsize
    rfl
  | cons f rest ih =>
    cases h with
    | cons hv hrest =>
      rw [map_cons] at hsize
      cases hfirst : s.sizeOf f.2.toShape with
      | varying =>
        rw [hfirst] at hsize
        cases hsize
      | fixed j =>
        cases hsum : Size.sum (rest.map fun f => s.sizeOf f.2.toShape) with
        | varying => simp [Size.sum, hfirst, hsum] at hsize
        | fixed k =>
          simp only [Size.sum, hfirst, hsum, Size.fixed.injEq] at hsize
          rw [length_append, length_of_shape hsized hI hfirst hv, ih hsum hrest, hsize]

lemma InstanceLaid.meets (hsized : s.Sized) (h : s.InstanceLaid R key v c) : s.Meets key c := by
  have hmeets : ∀ (key : ClassKey) (_ : Value) (c : Cells), s.Meets key c → s.Meets key c :=
    fun _ _ _ h => h
  refine h.induct (P := fun key _ c => s.Meets key c) (fun {name fields vs c} hfields hlaid => ?_)
    fun {name p a disc k vs c d} hplan hdisc hk ha hlaid => ?_
  · rintro _ t n ⟨⟩ ht hsize
    obtain ⟨d, _, _, _, _⟩ := t
    cases d with
    | struct d =>
      simp only [fields?, ht, Option.some.injEq] at hfields
      subst hfields
      refine length_of_fields hsized hmeets ?_ hlaid
      rw [hsized.struct name _ d ht rfl] at hsize
      simpa [StructType.plan, Function.comp_def] using hsize
    | typedef d =>
      simp only [fields?, ht, Option.some.injEq] at hfields
      subst hfields
      obtain ⟨u, -, hu⟩ := fieldsLaid_singleton_iff.1 hlaid
      rw [hsized.typedef name _ d ht rfl] at hsize
      exact length_of_shape hsized hmeets hsize hu
    | enum e | union u => simp [fields?, ht] at hfields
  · rintro _ t n ⟨⟩ ht hsize
    obtain ⟨j, hj, rfl⟩ := hsized.union name t p n ht hplan hsize a (UnionPlan.mem_of_select? ha)
    have hdiscLength := length_of_shape hsized hmeets (hsized.discSize name p hplan) hdisc
    rw [length_append, hdiscLength, Nat.add_left_cancel_iff]
    unfold payload ArmPlan.payload? at hlaid
    split_ifs at hlaid with hvoid
    · cases hlaid
      exact (sizeOf_void hvoid hj).symm
    · obtain ⟨u, -, hu⟩ := fieldsLaid_singleton_iff.1 hlaid
      exact length_of_shape hsized hmeets hj hu

end Schema

/-! ## Measuring -/

variable {name : String} {c cells : Cells} {s : Schema} {m : Module} {R : UInt64 → Nat → Prop}
  {v owner : Value} {base : Base} {items : List Value} {shape : Shape} {n : Nat}

namespace Schema

lemma share_of_plain {arity : Arity} (lib : Imports.Support)
    (hplain : base.isBytes = false) (hsize : s.sizeOf ⟨base, arity, length⟩ = .varying) :
    s.share lib ⟨base, arity, length⟩ =
      match arity with
      | .optional => .optional (s.sizeOf (.scalar base)).bytes?
      | .fixed => .items 0 (s.sizeOf (.scalar base)).bytes?
      | .varying => .items 4 (s.sizeOf (.scalar base)).bytes?
      | .scalar => .own := by
  unfold share
  simp only [hsize]
  cases base with
  | named name => cases arity <;> rfl
  | builtin b => cases b <;> first | exact absurd hplain (by decide) | (cases arity <;> rfl)

lemma find?_of_fields? (h : s.fields? name = some fields) :
    ∃ t, s.find? name = some t ∧ ∀ e, t.definition ≠ .enum e := by
  unfold fields? at h
  split at h
  · exact ⟨_, ‹_›, by simp⟩
  · exact ⟨_, ‹_›, by simp⟩
  · cases h

lemma find?_of_plan? {p : UnionPlan} (h : s.plan? name = some p) :
    ∃ t, s.find? name = some t := by
  unfold plan? at h
  split at h
  · exact ⟨_, ‹_›⟩
  · cases h

lemma payload_eq_fieldsOf (a : ArmPlan) :
    s.payload a = s.fieldsOf (a.payload?.toList.map fun name => (name, a.decl)) := by
  simp [payload, fieldsOf]

end Schema

section

variable {self : Value → Except Fault Nat} (hsized : s.Sized)

include hsized

lemma formNamed_of_varying (hsize : s.sizeOf (.scalar (.named name)) = .varying) :
    s.formNamed name = .cls (.cls (.type name)) := by
  refine Schema.formNamed_of_not_enum fun t ht e he => ?_
  simp [Schema.sizeOf, Shape.sizeWith_eq, Shape.scalar, Base.isBytes, ht,
    hsized.enum name t e ht he] at hsize

lemma self_of_element (hsize : s.sizeOf (.scalar base) = .varying) (hplain : base.isBytes = false)
    (h : FormLaid (fun key w d => self w = .ok d.length ∧ s.Meets key d) R
      (s.elementForm s.meant base) v c) : self v = .ok c.length := by
  cases base with
  | builtin b =>
    cases h with
    | scalar h => cases h <;> cases hsize
  | named name =>
    change FormLaid _ R (s.formNamed name) v c at h
    rw [formNamed_of_varying hsized hsize] at h
    cases h with
    | cls h => exact h.1

omit hsized in
lemma total_eq {I : ClassKey → Value → Cells → Prop}
    (hself : ∀ v d, FormLaid I R item v d → self v = .ok d.length) (h : ItemsLaid I R item items c)
    (sum : Nat) : Measure.total self sum items = .ok (sum + c.length) := by
  induction items generalizing c sum with
  | nil =>
    cases h
    rfl
  | cons v rest ih =>
    cases h with
    | cons hv hrest =>
      rw [Measure.total, hself v _ hv]
      dsimp only
      rw [ih hrest, length_append, Nat.add_assoc]

lemma elements_eq (hplain : base.isBytes = false)
    (h : ItemsLaid (fun key w d => self w = .ok d.length ∧ s.Meets key d) R
      (s.elementForm s.meant base) items c) :
    elements m self (s.sizeOf (.scalar base)).bytes? (.list items) = .ok c.length := by
  have helements : m.elements (.list items) = some items := rfl
  cases hsize : s.sizeOf (.scalar base) with
  | fixed n =>
    simp only [elements, helements, Size.bytes?]
    rw [Schema.length_of_items hsized (fun _ _ _ h => h.2) hsize h]
  | varying =>
    simp only [elements, helements, Size.bytes?]
    rw [total_eq (fun v d hd => self_of_element hsized hsize hplain hd) h, Nat.zero_add]

lemma share_eq
    (h : FormLaid (fun key w d => self w = .ok d.length ∧ s.Meets key d) R (s.formOf shape) v c) :
    Measure.share m self (s.share .whole shape) v = .ok c.length := by
  cases hsize : s.sizeOf shape with
  | fixed n =>
    have hshare : s.share .whole shape = .fixed n := by simp only [Schema.share, hsize]
    rw [hshare, Measure.share, Schema.length_of_shape hsized (fun _ _ _ h => h.2) hsize h]
  | varying =>
    have hview := Schema.formOf_view s shape
    generalize s.formOf shape = form at hview h
    cases hview with
    | fixedOpaque => cases hsize
    | @varOpaque arity length harity =>
      cases h with
      | varOpaque =>
        rw [length_append, Cells.length_word, Cells.length_padded]
        simp only [Schema.share, hsize, ite_true]
        rfl
    | string =>
      cases h with
      | string =>
        rw [length_append, Cells.length_word, Cells.length_padded]
        simp only [Schema.share, hsize, ite_true]
        rfl
    | scalar hplain =>
      rw [Schema.share_of_plain .whole hplain hsize]
      refine self_of_element hsized ?_ hplain h
      simpa [Schema.sizeOf, Shape.sizeWith_eq, Shape.scalar, hplain] using hsize
    | @optional base _ hplain =>
      rw [Schema.share_of_plain .whole hplain hsize]
      cases h with
      | absent => simp [Measure.share, Value.isNull]
      | present hnull h =>
        simp only [Measure.share, hnull, Bool.false_eq_true, ite_false, length_append,
          Cells.length_word]
        cases helement : s.sizeOf (.scalar base) with
        | fixed n =>
          simp only [Size.bytes?]
          rw [Schema.length_of_element hsized (fun _ _ _ h => h.2) helement h]
        | varying =>
          simp only [Size.bytes?]
          rw [self_of_element hsized helement hplain h]
          rfl
    | fixed hplain =>
      rw [Schema.share_of_plain .whole hplain hsize]
      cases h with
      | fixedArray _ h =>
        simp only [Measure.share, elements_eq hsized hplain h, Except.map, Nat.zero_add]
    | varying hplain =>
      rw [Schema.share_of_plain .whole hplain hsize]
      cases h with
      | array _ h =>
        simp only [Measure.share, elements_eq hsized hplain h, Except.map, length_append,
          Cells.length_word]

lemma slot_eq (hattr : m.attr owner name = .ok v)
    (h : FormLaid (fun key w d => self w = .ok d.length ∧ s.Meets key d) R (s.formOf shape) v c) :
    Measure.slot m self owner (s.slotOf .whole name shape) = .ok c.length := by
  have hshare := share_eq (m := m) hsized h
  unfold Measure.slot Schema.slotOf
  dsimp only
  split
  · rename_i hfixed
    rwa [hfixed] at hshare
  · rename_i hunknown
    rw [hunknown] at hshare
    cases hshare
  · rw [hattr]
    exact hshare

lemma slots_eq {vs : Fields}
    (hattr : ∀ f ∈ vs, m.attr owner f.1 = .ok f.2)
    (h : FieldsLaid (fun key w d => self w = .ok d.length ∧ s.Meets key d) R (s.fieldsOf decls) vs c)
    :
    slots m self owner (s.slotsOf .whole decls) = .ok c.length := by
  induction decls generalizing vs c with
  | nil =>
    cases h
    rfl
  | cons f rest ih =>
    cases h with
    | cons hv hrest =>
      have hfirst := slot_eq hsized (hattr _ (.head _)) hv
      have hothers := ih (fun g hg => hattr g (mem_cons_of_mem _ hg)) hrest
      rw [Schema.slotsOf, map_cons, slots, hfirst]
      show (slots m self owner (s.slotsOf .whole rest) >>= _) = _
      rw [hothers, length_append]
      rfl

end

namespace Faithful

variable (hm : Faithful s .whole m)

include hm

lemma measure_chain {c : Chain} {link : Shape} (hlinked : s.Linked name c link)
    {self : Value → Except Fault Nat} {P : Value → Prop}
    (hP : ∀ us w ws, P (.object (.type name) (c.node us w ws)) → w.isNull = false → P w)
    (hslots : ∀ vs decls us a, P (.object (.type name) vs) → us ⊆ vs →
      (∀ f ∈ us, m.attr (.object (.type name) vs) f.1 = .ok f.2) →
      s.LaysAll R (s.fieldsOf decls) us a →
      slots m self (.object (.type name) vs) (s.slotsOf .whole decls) = .ok a.length)
    {node : Value} (hnode : s.NodeLaid R name node cells) (hdepth : node.depth < n)
    (hnP : node.isNull = false → P node) (sum : Nat) :
    Measure.chain m self (s.chainBodyOf .whole c) n sum node = .ok (sum + cells.length) := by
  induction n generalizing node cells sum with
  | zero => omega
  | succ n ih =>
    cases hnode with
    | none => rfl
    | some hlaid =>
      obtain ⟨us, w, ws, a, l, b, rfl, rfl, hus, hw, hws⟩ := (hlinked.laid_iff _ _).1 hlaid
      obtain ⟨d, hnext, rfl⟩ := Schema.optional_laid_iff.1 hw
      have hPnode := hnP rfl
      have hattr := (hm.record name _ hlinked.fields?_eq).1.attr (c.node us w ws)
        (by simp [hus.names, hws.names])
      have hboth : s.LaysAll R (s.fieldsOf (c.before ++ c.behind)) (us ++ ws) (a ++ b) := by
        rw [Schema.fieldsOf, map_append]
        exact fieldsLaid_append_iff.2 ⟨us, ws, a, b, rfl, rfl, hus, hws⟩
      have hsize := hslots _ (c.before ++ c.behind) (us ++ ws) (a ++ b) hPnode
        (fun f hf => by simp only [mem_append, mem_cons] at hf ⊢; tauto)
        (fun f hf => hattr f (by simp only [mem_append, mem_cons] at hf ⊢; tauto)) hboth
      rw [Schema.slotsOf, map_append] at hsize
      have hshallow : w.depth < n := by
        have hlink := c.depth_lt_node name us w ws
        omega
      have hrest := ih hnext hshallow (hP us w ws hPnode) (sum + (a ++ b).length + 4)
      have hobject : (Value.object (.type name) (c.node us w ws)).isNull = false := rfl
      have hbody : (s.chainBodyOf .whole c).before ++ (s.chainBodyOf .whole c).behind =
          c.before.map (fun f => s.slotOf .whole f.1 f.2.toShape) ++
            c.behind.map (fun f => s.slotOf .whole f.1 f.2.toShape) := rfl
      rw [Measure.chain, if_neg (by simp [hobject]), hbody, hsize,
        hm.next_node hlinked hus.names hws.names]
      refine hrest.trans (congrArg _ ?_)
      simp only [length_append, Cells.length_word]
      omega

lemma measure_eq (hsized : s.Sized) {key : ClassKey} (h : s.InstanceLaid R key v cells)
    (hdepth : v.depth < n) : m.measure n v = .ok cells.length := by
  induction n generalizing key v cells with
  | zero => omega
  | succ n ih =>
    rw [Module.measure]
    have hmeets := h.meets hsized
    -- what an instance holds is measured one level below it
    have hform : ∀ {form w c}, w.depth < n → s.Lays R form w c →
        FormLaid (fun key w d => m.measure n w = .ok d.length ∧ s.Meets key d) R form w c := by
      intro form w c hbelow hlaid
      refine hlaid.imp (P := fun _ => True) (Value.allFloats_of_forall (fun _ => trivial) w) ?_
        fun _ _ _ h => h
      intro key u e hu _ hdeep _ _
      exact ⟨ih hu (hdeep.trans_lt hbelow), hu.meets hsized⟩
    have hfields : ∀ {fields vs c}, (∀ f ∈ vs, f.2.depth < n) →
        s.LaysAll R fields vs c →
        FieldsLaid (fun key w d => m.measure n w = .ok d.length ∧ s.Meets key d) R fields vs c :=
      fun hbelow hlaid => hlaid.imp fun _ _ g hg _ hd _ => hform (hbelow g hg) hd
    have hbelow : ∀ {key : ClassKey} {vs : Fields},
        (Value.object key vs).depth < n + 1 → ∀ f ∈ vs, f.2.depth < n := by
      intro key vs hdeep f hf
      have hlt := Value.depth_lt_object key hf
      omega
    cases h with
    | @record name fields vs _ hrecord hlaid =>
      obtain ⟨t, ht, henum⟩ := Schema.find?_of_fields? hrecord
      have hkeeps := (hm.record name _ hrecord).1
      have hattr := hkeeps.attr vs hlaid.names
      have hsize := hm.size name t ht henum
      cases hbytes : t.size with
      | fixed k =>
        rw [hbytes] at hsize
        rw [hmeets name t k rfl ht hbytes]
        simp only [own, hkeeps.reachable, bind, Except.bind, hsize, Size.bytes?]
      | varying =>
        rw [hbytes] at hsize
        rcases hm.body_cases hrecord with ⟨decls, rfl, hbody⟩ | ⟨c, link, hbody, hlinked⟩
        · simp only [own, hkeeps.reachable, bind, Except.bind, hsize, hbody, Size.bytes?]
          exact slots_eq hsized hattr (hfields (hbelow hdepth) hlaid)
        · simp only [own, hkeeps.reachable, bind, Except.bind, hsize, hbody, Size.bytes?]
          refine (hm.measure_chain hlinked (P := fun v => v.depth < n + 1) ?_ ?_
            (.some (.record hrecord hlaid)) hdepth (fun _ => hdepth) 0).trans
            (by rw [Nat.zero_add])
          · intro us w ws hdeep _
            have hlt := c.depth_lt_node name us w ws
            omega
          · intro vs decls us a hdeep hsub hattr hus
            refine slots_eq hsized hattr (hfields (fun f hf => ?_) hus)
            exact hbelow hdeep f (hsub hf)
    | @union name p a disc k vs c d hplan hdisc hk ha hlaid =>
      obtain ⟨t, ht⟩ := Schema.find?_of_plan? hplan
      have harm := UnionPlan.mem_of_select? ha
      have hkeeps := hm.arm name p hplan a harm
      have hattr := hkeeps.attr (vs ++ [(p.discField, disc)]) (by simp [hlaid.names])
      have hsize := hm.armSize name t p ht hplan a harm
      have hbody := hm.armBody name p hplan a harm
      cases hbytes : t.size with
      | fixed k =>
        rw [hbytes] at hsize
        rw [hmeets name t k rfl ht hbytes]
        simp only [own, hkeeps.reachable, bind, Except.bind, hsize, Size.bytes?]
      | varying =>
        rw [hbytes] at hsize
        have hdiscLength : c.length = p.discSize :=
          Schema.length_of_shape hsized (fun _ _ _ h => h.2) (hsized.discSize name p hplan)
            (hform (hbelow hdepth (p.discField, disc) (by simp)) hdisc)
        have hpayload := hfields (fun f hf => hbelow hdepth f (by simp [hf])) hlaid
        rw [Schema.payload_eq_fieldsOf] at hpayload
        have hslots := slots_eq hsized (fun f hf => hattr f (by simp [hf])) hpayload
        have hpayloadSlots : s.slotsOf .whole (a.payload?.toList.map fun name => (name, a.decl)) =
            (s.armBodyOf .whole p a).payload.toList := by
          simp only [Schema.slotsOf, Schema.armBodyOf]
          cases a.payload? <;> rfl
        rw [hpayloadSlots] at hslots
        simp only [own, hkeeps.reachable, bind, Except.bind, hsize, hbody, Size.bytes?, hslots,
          Except.map, length_append, hdiscLength]
        rfl

end Faithful

end Xdr
