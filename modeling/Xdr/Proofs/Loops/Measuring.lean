import Xdr.Proofs.Codec.Measuring
import Xdr.Proofs.Loops.Writing

/-!
# Measuring lists

The loop over a list adds up the sizes of the fields around the links, node by node.
-/

namespace Xdr

open List Schema

open Xdr.Measure (elements own slot total)

variable {v w : Value} {key : ClassKey} {wrappers : List String} {items : List Value} {base : Base}
  {final shape : Shape}

def Measured (x : Except Fault Nat) : Prop := x = .error .noAttribute ∨ ∃ n, x = .ok n

def addSizes (x y : Except Fault Nat) : Except Fault Nat := do
  let n ← x
  return n + (← y)

lemma measured_ok (n : Nat) : Measured (.ok n) := .inr ⟨n, rfl⟩

lemma Measured.map {x : Except Fault Nat} (h : Measured x) (f : Nat → Nat) : Measured (x.map f) := by
  rcases h with rfl | ⟨n, rfl⟩
  · exact .inl rfl
  · exact .inr ⟨f n, rfl⟩

lemma Measured.add {x y : Except Fault Nat} (hx : Measured x) (hy : Measured y) :
    Measured (addSizes x y) := by
  rcases hx with rfl | ⟨n, rfl⟩
  · exact .inl rfl
  · rcases hy with rfl | ⟨k, rfl⟩
    · exact .inl rfl
    · exact .inr ⟨n + k, rfl⟩

lemma addSizes_assoc (x y z : Except Fault Nat) :
    addSizes (addSizes x y) z = addSizes x (addSizes y z) := by
  cases x with
  | error f => rfl
  | ok n =>
    cases y with
    | error f => rfl
    | ok k =>
      cases z with
      | error f => rfl
      | ok l => exact congrArg Except.ok (Nat.add_assoc n k l)

lemma addSizes_zero (x : Except Fault Nat) : addSizes (.ok 0) x = x := by
  cases x with
  | error f => rfl
  | ok n => exact congrArg Except.ok (Nat.zero_add n)

lemma zero_addSizes (x : Except Fault Nat) : addSizes x (.ok 0) = x := by
  cases x <;> rfl

lemma addSizes_between {before behind later : Except Fault Nat} (hbefore : Measured before)
    (hbehind : Measured behind) (hlater : Measured later) (sum : Nat) :
    (addSizes before behind >>= fun size => addSizes (.ok (sum + size + 4)) later) =
      addSizes (.ok sum) (addSizes before (addSizes (addSizes (.ok 4) later) behind)) := by
  rcases hbefore with rfl | ⟨b, rfl⟩
  · rfl
  · rcases hbehind with rfl | ⟨a, rfl⟩ <;> rcases hlater with rfl | ⟨k, rfl⟩
    · rfl
    · rfl
    · rfl
    · exact congrArg Except.ok (by omega)

lemma map_add_eq (n : Nat) (x : Except Fault Nat) : x.map (n + ·) = addSizes (.ok n) x := by
  cases x <;> rfl

section

variable (m : Module) (self : Value → Except Fault Nat) (owner : Value)

lemma measure_slots_cons (x : Slot) (rest : List Slot) :
    Measure.slots m self owner (x :: rest) =
      addSizes (slot m self owner x) (Measure.slots m self owner rest) := rfl

lemma measure_slots_append (a b : List Slot) :
    Measure.slots m self owner (a ++ b) =
      addSizes (Measure.slots m self owner a) (Measure.slots m self owner b) := by
  induction a with
  | nil => exact (addSizes_zero _).symm
  | cons x rest ih => rw [cons_append, measure_slots_cons, measure_slots_cons, ih, addSizes_assoc]

end

def SameSize (self other : Value → Except Fault Nat) (v : Value) : Prop :=
  self v = other v ∧ Measured (self v)

section

variable {s : Schema} {lib : Imports.Support} {m : Module} {F D : UInt64 → Prop}
  {self other : Value → Except Fault Nat} (hsized : s.Sized)

include hsized

lemma instance_of_element {T : ClassKey → Value → Prop}
    (hsize : s.sizeOf (.scalar base) = .varying)
    (h : FormTyped T F D (s.elementForm s.meant base) v) : ∃ key, T key v := by
  cases base with
  | builtin b =>
    cases h with
    | scalar h => cases h <;> cases hsize
  | named name =>
    change FormTyped T F D (s.formNamed name) v at h
    rw [formNamed_of_varying hsized hsize] at h
    cases h with
    | cls h => exact ⟨_, h⟩

omit hsized in
lemma total_same (h : ∀ v ∈ items, SameSize self other v) (sum : Nat) :
    total self sum items = total other sum items ∧
      Measured (total self sum items) := by
  induction items generalizing sum with
  | nil => exact ⟨rfl, measured_ok sum⟩
  | cons v rest ih =>
    obtain ⟨⟨heq, hv⟩, hrest⟩ := forall_mem_cons.1 h
    rw [total, total, ← heq]
    rcases hv with hv | ⟨n, hv⟩
    · rw [hv]
      exact ⟨rfl, .inl rfl⟩
    · rw [hv]
      exact ih hrest (sum + n)

lemma elements_same
    (h : ∀ v ∈ items, FormTyped (fun _ => SameSize self other) F D (s.elementForm s.meant base) v) :
    let size := (s.sizeOf (.scalar base)).bytes?
    elements m self size (.list items) = elements m other size (.list items) ∧
      Measured (elements m self size (.list items)) := by
  have helements : m.elements (.list items) = some items := rfl
  cases hsize : s.sizeOf (.scalar base) with
  | fixed n =>
    exact ⟨rfl, measured_ok _⟩
  | varying =>
    simp only [elements, helements, Size.bytes?]
    refine total_same (fun v hv => ?_) 0
    obtain ⟨-, hsame⟩ := instance_of_element hsized hsize (h v hv)
    exact hsame

variable (lib) in
lemma share_same (h : FormTyped (fun _ => SameSize self other) F D (s.formOf shape) v) :
    Measure.share m self (s.share lib shape) v = Measure.share m other (s.share lib shape) v ∧
      Measured (Measure.share m self (s.share lib shape) v) := by
  cases hsize : s.sizeOf shape with
  | fixed n =>
    have hshare : s.share lib shape = .fixed n := by simp only [Schema.share, hsize]
    rw [hshare]
    exact ⟨rfl, measured_ok n⟩
  | varying =>
    have hview := formOf_view s shape
    generalize s.formOf shape = form at hview h
    cases hview with
    | fixedOpaque => cases hsize
    | varOpaque harity =>
      cases h with
      | varOpaque =>
        simp only [Schema.share, hsize]
        split_ifs
        · exact ⟨rfl, measured_ok _⟩
        · exact ⟨rfl, .inl rfl⟩
    | string =>
      cases h with
      | string =>
        simp only [Schema.share, hsize]
        split_ifs
        · exact ⟨rfl, measured_ok _⟩
        · exact ⟨rfl, .inl rfl⟩
    | @scalar base _ hplain =>
      rw [share_of_plain lib hplain hsize]
      have hvarying : s.sizeOf (.scalar base) = .varying := by
        simpa [Schema.sizeOf, Shape.sizeWith_eq, Shape.scalar, hplain] using hsize
      obtain ⟨-, hsame⟩ := instance_of_element hsized hvarying h
      exact hsame
    | @optional base _ hplain =>
      rw [share_of_plain lib hplain hsize]
      cases h with
      | absent => exact ⟨rfl, measured_ok 4⟩
      | present h =>
        simp only [Measure.share]
        cases hnull : v.isNull with
        | true => exact ⟨rfl, measured_ok 4⟩
        | false =>
          cases helement : s.sizeOf (.scalar base) with
          | fixed n => exact ⟨rfl, measured_ok _⟩
          | varying =>
            obtain ⟨-, heq, hself⟩ := instance_of_element hsized helement h
            simp only [Bool.false_eq_true, ite_false, Size.bytes?, heq]
            exact ⟨trivial, (heq ▸ hself).map _⟩
    | fixed hplain =>
      rw [share_of_plain lib hplain hsize]
      cases h with
      | fixedArray h =>
        obtain ⟨heq, hmeasured⟩ := elements_same (m := m) hsized h
        simp only [Measure.share, heq]
        exact ⟨trivial, (heq ▸ hmeasured).map _⟩
    | varying hplain =>
      rw [share_of_plain lib hplain hsize]
      cases h with
      | array h =>
        obtain ⟨heq, hmeasured⟩ := elements_same (m := m) hsized h
        simp only [Measure.share, heq]
        exact ⟨trivial, (heq ▸ hmeasured).map _⟩

omit hsized in
lemma slot_eq_share {owner : Value} {name : String} (hattr : m.attr owner name = .ok v)
    (shape : Shape) :
    slot m self owner (s.slotOf lib name shape) =
      Measure.share m self (s.share lib shape) v := by
  unfold slot Schema.slotOf
  dsimp only
  split
  · rename_i hfixed
    rw [hfixed]
    rfl
  · rename_i hunknown
    rw [hunknown]
    rfl
  · rw [hattr]
    rfl

variable (lib) in
lemma slots_same {owner : Value} {decls : List (String × Decl)} {vs : Fields}
    (hattr : ∀ f ∈ vs, m.attr owner f.1 = .ok f.2)
    (h : FieldsTyped (fun _ => SameSize self other) F D (s.fieldsOf decls) vs) :
    Measure.slots m self owner (s.slotsOf lib decls) =
        Measure.slots m other owner (s.slotsOf lib decls) ∧
      Measured (Measure.slots m self owner (s.slotsOf lib decls)) := by
  induction decls generalizing vs with
  | nil => exact ⟨rfl, measured_ok 0⟩
  | cons f rest ih =>
    cases h with
    | cons hv hrest =>
      have hget := hattr _ (.head _)
      obtain ⟨hfirst, hmeasured⟩ := share_same (m := m) lib hsized hv
      obtain ⟨hothers, hmeasured'⟩ := ih (fun g hg => hattr g (.tail _ hg)) hrest
      rw [Schema.slotsOf, map_cons, measure_slots_cons, measure_slots_cons,
        slot_eq_share hget, slot_eq_share hget]
      exact ⟨congrArg₂ addSizes hfirst hothers, hmeasured.add hmeasured'⟩

end

section

variable {T T' : ClassKey → Value → Prop} {F D : UInt64 → Prop}

lemma FormTyped.imp {form : Form} (h : FormTyped T F D form v)
    (hT : ∀ key w, T key w → w.depth ≤ v.depth → T' key w) : FormTyped T' F D form v := by
  induction h with
  | scalar h => exact .scalar h
  | enum h => exact .enum h
  | cls h => exact .cls (hT _ _ h le_rfl)
  | fixedOpaque h => exact .fixedOpaque h
  | varOpaque h => exact .varOpaque h
  | string text => exact .string text
  | absent => exact .absent
  | present _ ih => exact .present (ih hT)
  | fixedArray _ ih =>
    exact .fixedArray fun v hv => ih v hv fun key w hw hle =>
      hT key w hw (hle.trans (Value.depth_lt_list hv).le)
  | array _ ih =>
    exact .array fun v hv => ih v hv fun key w hw hle =>
      hT key w hw (hle.trans (Value.depth_lt_list hv).le)

lemma FieldsTyped.imp {fields : List (String × Form)} {vs : Fields}
    (h : FieldsTyped T F D fields vs)
    (hT : ∀ f ∈ vs, ∀ key w, T key w → w.depth ≤ f.2.depth → T' key w) :
    FieldsTyped T' F D fields vs := by
  induction h with
  | nil => exact .nil
  | cons hv _ ih =>
    obtain ⟨hfirst, hrest⟩ := forall_mem_cons.1 hT
    exact .cons (hv.imp hfirst) (ih hrest)

end

section

variable {m : Module} {key : ClassKey} {vs : Fields}
  (hreachable : m.reachable (.object key vs) "wire_size" = .ok ()) (self : Value → Except Fault Nat)
  (n : Nat)

include hreachable

lemma measure_own_record {slots : List Slot} (hbody : m.body? key = some (.record slots)) :
    own m self n (.object key vs) =
      match m.size? key with
      | some size => .ok size
      | none => Measure.slots m self (.object key vs) slots := by
  simp only [own, hreachable, bind, Except.bind, hbody]
  cases m.size? key <;> rfl

lemma measure_own_arm {a : ArmBody} (hbody : m.body? key = some (.arm a)) :
    own m self n (.object key vs) =
      match m.size? key with
      | some size => .ok size
      | none => addSizes (.ok a.discSize) (Measure.slots m self (.object key vs) a.payload.toList) := by
  simp only [own, hreachable, bind, Except.bind, hbody, map_add_eq]
  cases m.size? key <;> rfl

end

section

variable (m : Module) (s : Schema) (lib : Imports.Support)

lemma measure_slots_plain (self : Value → Except Fault Nat) (owner : Value) (slots : List Slot) :
    Measure.slots (m.plain s lib) self owner slots = Measure.slots m self owner slots := by
  induction slots with
  | nil => rfl
  | cons x rest ih =>
    rw [measure_slots_cons, measure_slots_cons, ih]
    rfl

end

def Module.measureDeep (m : Module) (v : Value) : Except Fault Nat := m.measure (v.depth + 1) v

namespace Faithful

variable {s : Schema} {lib : Imports.Support} {m : Module} (hm : Faithful s lib m)
  (hsized : s.Sized) {F D : UInt64 → Prop} {self other : Value → Except Fault Nat}

omit hm hsized in
lemma payload_slots (p : UnionPlan) (a : ArmPlan) :
    (s.armBodyOf lib p a).payload.toList =
      s.slotsOf lib (a.payload?.toList.map fun name => (name, a.decl)) := by
  simp only [Schema.slotsOf, Schema.armBodyOf]
  cases a.payload? <;> rfl

include hm

lemma measure_own_plain (hv : s.HasInstance F D key v)
    (hnode : ∀ name vs c link, v = .object (.type name) vs → ¬ s.Linked name c link) (n n' : Nat) :
    own m self n v = own (m.plain s lib) self n' v := by
  cases hv with
  | @record name fields vs hfields h =>
    have hkeeps := (hm.record name fields hfields).1
    have hreach := hkeeps.reachable vs "wire_size"
    obtain ⟨decls, -, hplain⟩ := hm.plain_record hfields
    rcases hm.plain_cases hfields with hsame | ⟨c, link, hlinked⟩
    · rw [measure_own_record hreach self n (hsame.trans hplain),
        measure_own_record (m := m.plain s lib) hreach self n' hplain, m.size?_plain,
        measure_slots_plain]
    · exact absurd hlinked (hnode name vs c link rfl)
  | @union name p a disc vs hplan ha hdisc h =>
    have hbody := hm.armBody name p hplan a ha
    have hreach := (hm.arm name p hplan a ha).reachable (vs ++ [(p.discField, disc)]) "wire_size"
    have hplain : (m.plain s lib).body? (.arm name a.attr) =
        some (.arm (s.armBodyOf lib p a)) := by
      rw [m.body?_plain, hbody]
      rfl
    rw [measure_own_arm hreach self n hbody,
      measure_own_arm (m := m.plain s lib) hreach self n' hplain, m.size?_plain,
      measure_slots_plain]

include hsized

lemma measure_own_same (hv : s.HasInstance F D key v)
    (hself : ∀ key w, s.HasInstance F D key w → w.depth < v.depth → SameSize self other w)
    (n n' : Nat) :
    own (m.plain s lib) self n v = own (m.plain s lib) other n' v ∧
      Measured (own (m.plain s lib) self n v) := by
  cases hv with
  | @record name fields vs hfields h =>
    have hkeeps := (hm.record name fields hfields).1
    have hreach := hkeeps.reachable vs "wire_size"
    have hattr := hkeeps.attr vs h.names
    obtain ⟨decls, rfl, hplain⟩ := hm.plain_record hfields
    rw [measure_own_record (m := m.plain s lib) hreach self n hplain,
      measure_own_record (m := m.plain s lib) hreach other n' hplain, measure_slots_plain,
      measure_slots_plain]
    cases (m.plain s lib).size? (.type name) with
    | some size => exact ⟨rfl, measured_ok size⟩
    | none =>
      exact slots_same lib hsized hattr (h.imp fun f hf key w hw hle =>
        hself key w hw (hle.trans_lt (Value.depth_lt_object _ hf)))
  | @union name p a disc vs hplan ha hdisc h =>
    have hkeeps := hm.arm name p hplan a ha
    have hreach := hkeeps.reachable (vs ++ [(p.discField, disc)]) "wire_size"
    have hattr := hkeeps.attr (vs ++ [(p.discField, disc)]) (by simp [h.names])
    have hplain : (m.plain s lib).body? (.arm name a.attr) =
        some (.arm (s.armBodyOf lib p a)) := by
      rw [m.body?_plain, hm.armBody name p hplan a ha]
      rfl
    rw [measure_own_arm (m := m.plain s lib) hreach self n hplain,
      measure_own_arm (m := m.plain s lib) hreach other n' hplain, measure_slots_plain,
      measure_slots_plain, payload_slots]
    cases (m.plain s lib).size? (.arm name a.attr) with
    | some size => exact ⟨rfl, measured_ok size⟩
    | none =>
      rw [payload_eq_fieldsOf] at h
      obtain ⟨heq, hmeasured⟩ := slots_same lib hsized
        (fun f hf => hattr f (mem_append_left _ hf))
        (h.imp fun f hf key w hw hle =>
          hself key w hw (hle.trans_lt (Value.depth_lt_object _ (mem_append_left _ hf))))
      exact ⟨congrArg (addSizes _) heq, (measured_ok _).add hmeasured⟩

lemma measure_levels {n : Nat} (hv : s.HasInstance F D key v) (hn : v.depth < n) :
    (m.plain s lib).measure n v =
        own (m.plain s lib) (m.plain s lib).measureDeep 0 v ∧
      Measured ((m.plain s lib).measure n v) := by
  induction n using Nat.strong_induction_on generalizing key v with
  | _ n ih =>
    cases n with
    | zero => omega
    | succ n =>
      rw [Module.measure]
      refine hm.measure_own_same hsized hv (fun key w hw hdepth => ?_) (n + 1) 0
      obtain ⟨hlevel, hmeasured⟩ := ih n (Nat.lt_succ_self n) hw (by omega)
      obtain ⟨hdeep, -⟩ := ih (w.depth + 1) (by omega) hw (Nat.lt_succ_self _)
      exact ⟨hlevel.trans hdeep.symm, hmeasured⟩

lemma measureDeep_plain (hv : s.HasInstance F D key v) :
    (m.plain s lib).measureDeep v =
        own (m.plain s lib) (m.plain s lib).measureDeep 0 v ∧
      Measured ((m.plain s lib).measureDeep v) :=
  hm.measure_levels hsized hv (Nat.lt_succ_self _)

omit hm hsized in
lemma sum_varying {sizes : List Size} (h : Size.varying ∈ sizes) : Size.sum sizes = .varying := by
  induction sizes with
  | nil => cases h
  | cons size rest ih =>
    cases size with
    | varying => rfl
    | fixed n =>
      have hrest : Size.varying ∈ rest := by simpa using h
      simp only [Size.sum, ih hrest]

omit hm in
lemma wraps_varying (hwraps : s.Wraps shape wrappers final) (hfinal : s.sizeOf final = .varying) :
    s.sizeOf shape = .varying := by
  induction hwraps with
  | refl => exact hfinal
  | @cons name t d length inner final ht hd h ih =>
    have hinner := ih hfinal
    rw [← hsized.typedef name t d ht hd] at hinner
    simp [Schema.sizeOf, Shape.sizeWith_eq, Base.isBytes, ht, hinner]

section

variable {name : String} {c : Chain} {link : Shape} (hlinked : s.Linked name c link)

include hlinked

omit hm in
lemma linked_varying : s.sizeOf link = .varying ∧
    ∃ t, s.find? name = some t ∧ (∀ e, t.definition ≠ .enum e) ∧ t.size = .varying := by
  obtain ⟨bound, hwraps⟩ := hlinked.wraps
  have hlink : s.sizeOf link = .varying :=
    wraps_varying hsized hwraps (by simp [Schema.sizeOf, Shape.sizeWith_eq])
  obtain ⟨t, d, decl, ht, hd, -, hplan, rfl⟩ := hlinked.plan
  refine ⟨hlink, t, ht, by simp [hd], ?_⟩
  rw [hsized.struct name t d ht hd]
  refine sum_varying ?_
  have hmem : (c.link, decl) ∈ d.plan := by rw [hplan]; simp
  obtain ⟨f, hf, heq⟩ := mem_map.1 hmem
  obtain rfl : f = decl := congrArg Prod.snd heq
  exact mem_map.2 ⟨f, hf, hlink⟩

lemma share_link (hwraps : s.Wraps shape wrappers final) {bound : Option Nat}
    (hfinal : final = ⟨.named name, .optional, bound⟩)
    (hw : s.Types F D (s.formOf shape) (wrapped wrappers w)) :
    Measure.share m (m.plain s lib).measureDeep (s.share lib shape) (wrapped wrappers w) =
      addSizes (.ok 4) (if w.isNull then .ok 0 else (m.plain s lib).measureDeep w) := by
  have hvarying : ∀ {shape wrappers}, s.Wraps shape wrappers final → s.sizeOf shape = .varying :=
    fun h => wraps_varying hsized h (by simp [hfinal, Schema.sizeOf, Shape.sizeWith_eq])
  induction hwraps with
  | refl shape =>
    have hsize := hvarying (.refl shape)
    obtain ⟨-, t, ht, -, hnode⟩ := linked_varying hsized hlinked
    have helement : s.sizeOf (.scalar (.named name)) = .varying := by
      simp [Schema.sizeOf, Shape.sizeWith_eq, Shape.scalar, Base.isBytes, ht, hnode]
    subst hfinal
    rw [share_of_plain lib rfl hsize]
    show Measure.share m _ (.optional (s.sizeOf (.scalar (.named name))).bytes?) w = _
    simp only [helement, Size.bytes?, Measure.share]
    cases w.isNull with
    | true => rfl
    | false => exact map_add_eq 4 _
  | @cons other t d length inner final ht hd h ih =>
    obtain ⟨hform, -, hfields⟩ := formNamed_of_typedef ht hd
    have hinner : s.HasInstance F D (.type other) (wrapped (other :: inner) w) := by
      change FormTyped _ F D (s.formNamed other) _ at hw
      rw [hform] at hw
      cases hw with
      | cls hw => exact hw
    have htyped : s.Types F D (s.formOf d.decl.toShape) (wrapped inner w) := by
      rw [wrapped_cons, hasInstance_record_iff hfields] at hinner
      obtain ⟨vs, heq, hvs⟩ := hinner
      cases heq
      obtain ⟨v, heq, hv⟩ := fieldsTyped_singleton_iff.1 hvs
      cases heq
      exact hv
    have hkeeps := (hm.record other _ hfields).1
    have hattr := hkeeps.attr [("value", wrapped inner w)] rfl _ (.head _)
    have hreach := hkeeps.reachable [("value", wrapped inner w)] "wire_size"
    have hsize : (m.plain s lib).size? (.type other) = none := by
      have hnone := hvarying h
      rw [← hsized.typedef other t d ht hd] at hnone
      rw [m.size?_plain, hm.size other t ht (by simp [hd]), hnone]
      rfl
    obtain ⟨hdeep, -⟩ := hm.measureDeep_plain hsized hinner
    rw [share_of_plain lib rfl (hvarying (.cons ht hd h))]
    refine hdeep.trans ?_
    rw [wrapped_cons, measure_own_record (m := m.plain s lib) hreach _ 0 (hm.plain_typedef ht hd),
      hsize, measure_slots_plain, measure_slots_cons, slot_eq_share hattr,
      ih hfinal htyped hvarying]
    exact zero_addSizes _

lemma measureDeep_node {us ws : Fields}
    (hnode : s.HasInstance F D (.type name) (.object (.type name) (c.node us w ws)))
    (hus : s.TypesAll F D (s.fieldsOf c.before) us) (hws : s.TypesAll F D (s.fieldsOf c.behind) ws)
    (hw : s.Types F D (s.formOf link) (wrapped c.wrappers w)) :
    let node := Value.object (.type name) (c.node us w ws)
    let sizes := fun decls => Measure.slots m (m.plain s lib).measureDeep node (s.slotsOf lib decls)
    (m.plain s lib).measureDeep node =
      addSizes (sizes c.before) (addSizes (addSizes (.ok 4)
        (if w.isNull then .ok 0 else (m.plain s lib).measureDeep w)) (sizes c.behind)) := by
  intro node sizes
  have hkeeps := (hm.record name _ hlinked.fields?_eq).1
  have hattr := hkeeps.attr (c.node us w ws) (by simp [hus.names, hws.names])
    (c.link, wrapped c.wrappers w) (by simp)
  obtain ⟨-, t, ht, henum, hvarying⟩ := linked_varying hsized hlinked
  obtain ⟨bound, hwraps⟩ := hlinked.wraps
  have hsize : (m.plain s lib).size? (.type name) = none := by
    rw [m.size?_plain, hm.size name t ht henum, hvarying]
    rfl
  obtain ⟨hdeep, -⟩ := hm.measureDeep_plain hsized hnode
  rw [hdeep, measure_own_record (m := m.plain s lib) (hkeeps.reachable _ _) _ 0
    (hm.plain_linked hlinked).2, hsize, measure_slots_plain, measure_slots_append, measure_slots_cons,
    slot_eq_share hattr, hm.share_link hsized hlinked hwraps rfl hw]

lemma chain_measure {self : Value → Except Fault Nat} {n : Nat} {node : Value}
    (hnode : s.Types F D (.optional (.cls (.cls (.type name)))) node) (hn : node.depth < n)
    (hself : ∀ key w, s.HasInstance F D key w → w.depth < node.depth →
      self w = (m.plain s lib).measureDeep w) (sum : Nat) :
    Measure.chain m self (s.chainBodyOf lib c) n sum node =
      addSizes (.ok sum) (if node.isNull then .ok 0 else (m.plain s lib).measureDeep node) := by
  induction n generalizing node sum with
  | zero => omega
  | succ n ih =>
    rcases node_of_optional hnode with rfl | hnode
    · rfl
    obtain ⟨us, w, ws, rfl, hus, hw, hws⟩ := (hlinked.typed_iff node).1 hnode
    have hlt := c.depth_lt_node name us w ws
    have hrest := ih hw (by omega) (fun key v hv hdepth => hself key v hv (hdepth.trans hlt))
    obtain ⟨bound, hwraps⟩ := hlinked.wraps
    have hlink : s.Types F D (s.formOf link) (wrapped c.wrappers w) := by
      rw [hwraps.typed_iff]
      exact ⟨w, rfl, by rwa [hlinked.formOf_next bound]⟩
    have hplain := hm.measureDeep_node hsized hlinked hnode hus hws hlink
    have hattr := (hm.record name _ hlinked.fields?_eq).1.attr (c.node us w ws)
      (by simp [hus.names, hws.names])
    -- the loop measures the fields around the link as the plain form does
    have hslots : ∀ decls vs, vs ⊆ c.node us w ws → s.TypesAll F D (s.fieldsOf decls) vs →
        Measure.slots m self (.object (.type name) (c.node us w ws)) (s.slotsOf lib decls) =
          Measure.slots m (m.plain s lib).measureDeep (.object (.type name) (c.node us w ws))
            (s.slotsOf lib decls) ∧
        Measured (Measure.slots m self (.object (.type name) (c.node us w ws))
          (s.slotsOf lib decls)) := by
      intro decls vs hsub hvs
      refine slots_same lib hsized (fun f hf => hattr f (hsub hf)) (hvs.imp fun f hf key v hv hle => ?_)
      have heq := hself key v hv (hle.trans_lt (Value.depth_lt_object _ (hsub hf)))
      exact ⟨heq, heq ▸ (hm.measureDeep_plain hsized hv).2⟩
    obtain ⟨hbefore, hbeforeM⟩ := hslots c.before us (subset_append_left _ _) hus
    obtain ⟨hbehind, hbehindM⟩ := hslots c.behind ws
      (fun f hf => mem_append_right _ (.tail _ hf)) hws
    have hnext : Measured (if w.isNull then .ok 0 else (m.plain s lib).measureDeep w) := by
      rcases node_of_optional hw with rfl | hw
      · exact measured_ok 0
      · rw [hw.isNull]
        exact (hm.measureDeep_plain hsized hw).2
    have hobject : (Value.object (.type name) (c.node us w ws)).isNull = false := rfl
    have hbody : (s.chainBodyOf lib c).before ++ (s.chainBodyOf lib c).behind =
        s.slotsOf lib c.before ++ s.slotsOf lib c.behind := rfl
    rw [Measure.chain, hobject, if_neg Bool.false_ne_true, if_neg Bool.false_ne_true, hplain, hbody,
      measure_slots_append, hm.next_node hlinked hus.names hws.names]
    dsimp only
    rw [← hbefore, ← hbehind]
    simp only [bind, Except.bind, hrest]
    exact addSizes_between hbeforeM hbehindM hnext sum

end

lemma measure_plain {n n' : Nat} (hv : s.HasInstance F D key v) (hn : v.depth < n)
    (hn' : v.depth < n') : m.measure n v = (m.plain s lib).measure n' v := by
  induction n using Nat.strong_induction_on generalizing key v n' with
  | _ n ih =>
    cases n with
    | zero => omega
    | succ n =>
      have hself : ∀ key w, s.HasInstance F D key w → w.depth < v.depth →
          m.measure n w = (m.plain s lib).measureDeep w := fun key w hw hdepth =>
        ih n (Nat.lt_succ_self n) hw (by omega) (Nat.lt_succ_self _)
      rw [(hm.measure_levels hsized hv hn').1, Module.measure]
      by_cases hnode : ∃ name vs c link, v = .object (.type name) vs ∧ s.Linked name c link
      · obtain ⟨name, vs, c, link, rfl, hlinked⟩ := hnode
        have hkey : s.HasInstance F D (.type name) (.object (.type name) vs) := by
          cases hv with
          | record hfields h => exact .record hfields h
        obtain ⟨-, t, ht, henum, hvarying⟩ := linked_varying hsized hlinked
        have hsize : m.size? (.type name) = none := by
          rw [hm.size name t ht henum, hvarying]
          rfl
        have hreach := (hm.record name _ hlinked.fields?_eq).1.reachable vs "wire_size"
        have hchain := hm.chain_measure hsized hlinked (.present (.cls hkey)) hn hself 0
        rw [addSizes_zero, (hm.measureDeep_plain hsized hkey).1] at hchain
        refine Eq.trans ?_ hchain
        simp only [own, hreach, bind, Except.bind, hsize, (hm.plain_linked hlinked).1]
      · rw [hm.measure_own_plain hv (fun name vs c link hv hlinked =>
          hnode ⟨name, vs, c, link, hv, hlinked⟩) (n + 1) 0]
        refine (hm.measure_own_same hsized hv (fun key w hw hdepth => ?_) 0 0).1
        have heq := hself key w hw hdepth
        exact ⟨heq, heq ▸ (hm.measureDeep_plain hsized hw).2⟩

end Faithful

end Xdr
