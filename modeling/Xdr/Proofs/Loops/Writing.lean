import Xdr.Proofs.Codec.Chains

/-!
# Plain forms and lists

A struct that links to itself is encoded, decoded, measured and compared by loops.
-/

namespace Xdr

open List

variable {name : String} {c : Chain} {v : Value} {link : Shape} {fields : List (String × Form)}
  {vs : Fields} {key : ClassKey} {form : Form}

/-- The body of a class in plain form: a struct has its fields one after the other. -/
def Schema.plainBody (s : Schema) (lib : Imports.Support) (key : ClassKey) (b : Body) : Body :=
  match key with
  | .type name =>
    match s.find? name with
    | some ⟨.struct d, _, _, _, _⟩ => .record (s.slotsOf lib d.plan)
    | _ => b
  | _ => b

namespace Module

def plain (m : Module) (s : Schema) (lib : Imports.Support) : Module :=
  { m with bodies := m.bodies.map fun x => (x.1, x.2.1, s.plainBody lib x.1 x.2.2) }

/-- How values are encoded by the bodies of a module when they behave in the given way. -/
def packAs (m : Module) (c : Conduct) : Nat → Value → Write
  | 0, _ => throw .tooDeep
  | n + 1, v => Pack.own m ⟨c, m.packAs c n, m.elements⟩ (n + 1) v

variable (m : Module) (s : Schema) (lib : Imports.Support)

@[simp]
lemma plain_toGlobals : (m.plain s lib).toGlobals = m.toGlobals := rfl

lemma lookup_plain (key : ClassKey) :
    (m.plain s lib).bodies.lookup key =
      (m.bodies.lookup key).map fun x => (x.1, s.plainBody lib key x.2) := by
  show (m.bodies.map _).lookup key = _
  induction m.bodies with
  | nil => rfl
  | cons x rest ih =>
    rw [map_cons, lookup_cons, lookup_cons]
    cases h : key == x.1 with
    | true =>
      obtain rfl := eq_of_beq h
      rfl
    | false => exact ih

lemma body?_plain (key : ClassKey) :
    (m.plain s lib).body? key = (m.body? key).map (s.plainBody lib key) := by
  rw [body?, body?, lookup_plain, Option.map_map, Option.map_map]
  rfl

lemma size?_plain (key : ClassKey) : (m.plain s lib).size? key = m.size? key := by
  rw [size?, size?, lookup_plain]
  cases m.bodies.lookup key <;> rfl

lemma hashable_plain (n : Nat) (v : Value) : (m.plain s lib).hashable n v = m.hashable n v := by
  induction n generalizing v with
  | zero => rfl
  | succ n ih =>
    cases v with
    | object key fields =>
      have hall : (fun f : String × Value => (m.plain s lib).hashable n f.2) =
          fun f => m.hashable n f.2 := funext fun f => ih f.2
      simp only [hashable, hall]
      rfl
    | bytes bs storage => cases storage <;> rfl
    | _ => rfl

lemma different_plain (a b : Value) :
    Equality.different (m.plain s lib) a b = Equality.different m a b := by
  unfold Equality.different Equality.answer Equality.isComparing
  rfl

end Module

/-- The list that a struct with this name makes. -/
def Schema.chainNamed? (s : Schema) (name : String) : Option Chain :=
  match s.find? name with
  | some ⟨.struct d, _, _, _, _⟩ => s.chain? d
  | _ => none

def Value.IsNode (name : String) (v : Value) : Prop :=
  v = .null ∨ ∃ fields, v = .object (.type name) fields

/-- A value made of instances that have the fields of their classes. The fields may hold anything, but
for the link of a node: it leads to another node or to none, so that the nodes are a list. -/
inductive Schema.Built (s : Schema) : Value → Prop
  | simple {v : Value} (hlist : ∀ items, v ≠ .list items)
      (hobject : ∀ key fields, v ≠ .object key fields) : Built s v
  | list {items : List Value} (h : ∀ v ∈ items, Built s v) : Built s (.list items)
  | record {name : String} {fields : List (String × Form)} {vs : List (String × Value)}
      (hfields : s.fields? name = some fields) (hnames : vs.map (·.1) = fields.map (·.1))
      (hlink : ∀ c, s.chainNamed? name = some c →
        ∃ w : Value, w.IsNode name ∧ (c.link, wrapped c.wrappers w) ∈ vs)
      (h : ∀ f ∈ vs, Built s f.2) : Built s (.object (.type name) vs)
  | arm {name : String} {p : UnionPlan} {a : ArmPlan} {vs : List (String × Value)}
      (hplan : s.plan? name = some p) (ha : a ∈ p.arms)
      (hnames : vs.map (·.1) = (s.payload a).map (·.1) ++ [p.discField])
      (h : ∀ f ∈ vs, Built s f.2) : Built s (.object (.arm name a.attr) vs)

namespace Schema

variable {s : Schema}

lemma Linked.chainNamed?_eq (h : s.Linked name c link) : s.chainNamed? name = some c := by
  obtain ⟨⟨_, _, _, _, _⟩, d, decl, ht, hd, hc, -, -⟩ := h.plan
  cases hd
  simp only [chainNamed?, ht, hc]

lemma Linked.plainBody_eq (h : s.Linked name c link) (lib : Imports.Support) (b : Body) :
    s.plainBody lib (.type name) b = .record
      (s.slotsOf lib c.before ++ s.slotOf lib c.link link :: s.slotsOf lib c.behind) := by
  obtain ⟨⟨_, _, _, _, _⟩, d, decl, ht, hd, -, hplan, rfl⟩ := h.plan
  cases hd
  simp only [plainBody, ht, hplan, slotsOf, map_append, map_cons]

lemma exists_linked_of_chainNamed? (h : s.chainNamed? name = some c) :
    ∃ link, s.Linked name c link := by
  unfold chainNamed? at h
  split at h
  · rename_i hfind
    exact exists_linked hfind rfl h
  · cases h

namespace Built

lemma elements (m : Module) (hv : s.Built v) {items : List Value} (h : m.elements v = some items) :
    ∀ w ∈ items, s.Built w ∧ w.depth ≤ v.depth := by
  have hint : ∀ n : Int, s.Built (.int n) ∧ (Value.int n).depth ≤ v.depth := fun n =>
    ⟨.simple (by simp) (by simp), Nat.zero_le _⟩
  cases v with
  | list vs =>
    cases h
    cases hv with
    | simple hlist => exact absurd rfl (hlist _)
    | list hitems => exact fun w hw => ⟨hitems w hw, (Value.depth_lt_list hw).le⟩
  | str text =>
    cases h
    intro w hw
    obtain ⟨c, -, rfl⟩ := mem_map.1 hw
    exact ⟨.simple (by simp) (by simp), Nat.zero_le _⟩
  | bytes bs storage =>
    cases storage with
    | pairs =>
      cases h
      intro w hw
      fun_induction Value.pairsOf bs with
      | case1 low high rest ih =>
        rcases mem_cons.1 hw with rfl | hw
        · exact hint _
        · exact ih (.simple (by simp) (by simp)) hint hw
      | case2 => cases hw
    | _ =>
      cases h
      intro w hw
      obtain ⟨b, -, rfl⟩ := mem_map.1 hw
      exact hint _
  | cls key =>
    obtain ⟨e, -, rfl⟩ := Option.map_eq_some_iff.1 h
    intro w hw
    obtain ⟨x, -, rfl⟩ := mem_map.1 hw
    exact ⟨.simple (by simp) (by simp), Nat.zero_le _⟩
  | _ => cases h

lemma field (h : s.Built (.object key vs)) {f : String × Value} (hf : f ∈ vs) : s.Built f.2 := by
  cases h with
  | simple _ hobject => exact absurd rfl (hobject _ _)
  | record _ _ _ h | arm _ _ _ h => exact h f hf

lemma of_wrapped {wrappers : List String} (h : s.Built (wrapped wrappers v)) : s.Built v := by
  induction wrappers with
  | nil => exact h
  | cons name rest ih => exact ih (h.field (.head _))

end Built

lemma built_of_forms {P : Form → Value → Prop}
    (hlist : ∀ {form items}, P form (.list items) → ∀ v ∈ items, ∃ item, P item v)
    (hobject : ∀ {form key vs}, P form (.object key vs) → (∀ f ∈ vs, ∃ form, P form f.2) ∧
      ((∀ f ∈ vs, s.Built f.2) → s.Built (.object key vs))) (h : P form v) : s.Built v := by
  induction hn : v.depth using Nat.strong_induction_on generalizing form v with
  | _ n ih =>
    subst hn
    cases v with
    | list items =>
      refine .list fun w hw => ?_
      obtain ⟨item, hitem⟩ := hlist h w hw
      exact ih w.depth (Value.depth_lt_list hw) hitem rfl
    | object key vs =>
      obtain ⟨hparts, hbuilt⟩ := hobject h
      refine hbuilt fun f hf => ?_
      obtain ⟨g, hg⟩ := hparts f hf
      exact ih f.2.depth (Value.depth_lt_object key hf) hg rfl
    | _ => exact .simple (by simp) (by simp)

section

variable {F D : UInt64 → Prop} {R : UInt64 → Nat → Prop}

lemma built_of_typed (h : s.Types F D form v) : s.Built v := by
  refine built_of_forms (P := s.Types F D) (fun {form items} h => ?_)
    (fun {form key vs} h => ?_) h
  · generalize hv : Value.list items = w at h
    induction h with
    | fixedArray h | array h => cases hv; exact fun v hv => ⟨_, h v hv⟩
    | present _ ih => exact ih hv
    | cls h | scalar h => subst hv; cases h
    | _ => cases hv
  · generalize hv : Value.object key vs = w at h
    induction h with
    | present _ ih => exact ih hv
    | scalar h => subst hv; cases h
    | cls h =>
      subst hv
      cases h with
      | record hfields h =>
        refine ⟨h.exists_form, .record hfields h.names fun c hc => ?_⟩
        obtain ⟨link, hlinked⟩ := exists_linked_of_chainNamed? hc
        obtain ⟨us, w, ws, heq, -, hw, -⟩ := (hlinked.typed_iff _).1 (.record hfields h)
        cases heq
        refine ⟨w, (node_of_optional hw).imp id fun hw => ?_, by simp⟩
        obtain ⟨vs, rfl, -⟩ := (hasInstance_record_iff hlinked.fields?_eq).1 hw
        exact ⟨vs, rfl⟩
      | union hplan ha hdisc h =>
        refine ⟨forall_mem_append.2 ⟨h.exists_form, ?_⟩, .arm hplan ha (by simp [h.names])⟩
        exact forall_mem_singleton.2 ⟨_, hdisc⟩
    | _ => cases hv

lemma InstanceLaid.built {c : Cells} (h : s.InstanceLaid R key v c) : s.Built v := by
  refine built_of_forms (P := fun form w => ∃ d, s.Lays R form w d)
    (fun {form items} h => ?_) (fun {form key vs} h => ?_) ⟨c, .cls h⟩
  · obtain ⟨d, h⟩ := h
    have hitems : ∀ {item d}, ItemsLaid (s.InstanceLaid R) R item items d →
        ∀ v ∈ items, ∃ item d, s.Lays R item v d := by
      clear h
      intro item d h
      induction items generalizing d with
      | nil => simp
      | cons v rest ih =>
        cases h with
        | cons hv hrest => exact forall_mem_cons.2 ⟨⟨item, _, hv⟩, ih hrest⟩
    induction form generalizing d with
    | fixedArray n item =>
      cases h with
      | fixedArray _ h => exact hitems h
    | array bound item =>
      cases h with
      | array _ h => exact hitems h
    | optional item ih =>
      cases h with
      | present _ h => exact ih _ h
    | cls m =>
      cases h with
      | cls h => cases h
    | scalar b =>
      cases h with
      | scalar h => cases h
    | _ => cases h
  · obtain ⟨d, h⟩ := h
    induction form generalizing d with
    | optional item ih =>
      cases h with
      | present _ h => exact ih _ h
    | scalar b =>
      cases h with
      | scalar h => cases h
    | cls m =>
      cases h with
      | cls h =>
        cases h with
        | record hfields h =>
          refine ⟨h.exists_form, .record hfields h.names fun c hc => ?_⟩
          obtain ⟨link, hlinked⟩ := exists_linked_of_chainNamed? hc
          obtain ⟨us, w, ws, a, l, b, heq, -, -, hw, -⟩ := (hlinked.laid_iff _ _).1 (.record hfields h)
          cases heq
          obtain ⟨e, hnode, -⟩ := optional_laid_iff.1 hw
          refine ⟨w, ?_, by simp⟩
          cases hnode with
          | none => exact .inl rfl
          | some h =>
            obtain ⟨vs, rfl, -⟩ := (instanceLaid_record_iff hlinked.fields?_eq).1 h
            exact .inr ⟨vs, rfl⟩
        | union hplan hdisc hk ha h =>
          refine ⟨forall_mem_append.2 ⟨h.exists_form, ?_⟩,
            .arm hplan (UnionPlan.mem_of_select? ha) (by simp [h.names])⟩
          exact forall_mem_singleton.2 ⟨_, _, hdisc⟩
    | _ => cases h

end

end Schema

namespace Faithful

variable {s : Schema} {lib : Imports.Support} {m : Module} (hm : Faithful s lib m)

include hm

lemma plain_typedef {t : TypeInfo} {d : TypedefType} (ht : s.find? name = some t)
    (hd : t.definition = .typedef d) :
    (m.plain s lib).body? (.type name) =
      some (.record [s.slotOf lib "value" d.decl.toShape]) := by
  obtain ⟨_, _, _, _, _⟩ := t
  cases hd
  simp only [m.body?_plain, hm.body name, ht, Option.bind_some, Schema.bodyOf, Option.map_some,
    Schema.plainBody]

lemma plain_record (hfields : s.fields? name = some fields) :
    ∃ decls, fields = s.fieldsOf decls ∧
      (m.plain s lib).body? (.type name) = some (.record (s.slotsOf lib decls)) := by
  unfold Schema.fields? at hfields
  split at hfields
  · rename_i d _ _ _ _ hfind
    cases hfields
    obtain ⟨b, hb⟩ := hm.bodied name _ hfind (by simp)
    refine ⟨d.plan, rfl, ?_⟩
    rw [m.body?_plain, hm.body name, hfind, Option.bind_some, hb, Option.map_some]
    simp only [Schema.plainBody, hfind]
  · rename_i d _ _ _ _ hfind
    cases hfields
    exact ⟨[("value", d.decl)], rfl, hm.plain_typedef hfind rfl⟩
  · cases hfields

lemma plain_linked (h : s.Linked name c link) :
    m.body? (.type name) = some (.chain (s.chainBodyOf lib c)) ∧
      (m.plain s lib).body? (.type name) = some (.record (s.slotsOf lib c.before ++
        s.slotOf lib c.link link :: s.slotsOf lib c.behind)) := by
  have hbody : m.body? (.type name) = some (.chain (s.chainBodyOf lib c)) := by
    obtain ⟨⟨_, _, _, _, _⟩, d, decl, ht, hd, hc, -, -⟩ := h.plan
    cases hd
    simp only [hm.body name, ht, Option.bind_some, Schema.bodyOf, hc]
  refine ⟨hbody, ?_⟩
  rw [m.body?_plain, hbody, Option.map_some, h.plainBody_eq]

lemma plain_cases (hfields : s.fields? name = some fields) :
    m.body? (.type name) = (m.plain s lib).body? (.type name) ∨ ∃ c link, s.Linked name c link := by
  have hbody := hm.body name
  unfold Schema.fields? at hfields
  rw [m.body?_plain]
  split at hfields
  · rename_i d _ _ _ _ hfind
    rw [hfind, Option.bind_some] at hbody
    cases hchain : s.chain? d with
    | none =>
      simp only [hbody, Schema.bodyOf, hchain, Option.map_some, Schema.plainBody, hfind, true_or]
    | some c =>
      obtain ⟨link, hlinked⟩ := Schema.exists_linked hfind rfl hchain
      exact .inr ⟨c, link, hlinked⟩
  · rename_i d _ _ _ _ hfind
    rw [hfind, Option.bind_some] at hbody
    simp only [hbody, Schema.bodyOf, Option.map_some, Schema.plainBody, hfind, true_or]
  · cases hfields

lemma built_node (hlinked : s.Linked name c link) (h : s.Built (.object (.type name) vs)) :
    ∃ us w ws, vs = c.node us w ws ∧ w.IsNode name ∧ s.Built w ∧
      us.map (·.1) = (s.fieldsOf c.before).map (·.1) ∧
      ws.map (·.1) = (s.fieldsOf c.behind).map (·.1) ∧ ∀ f ∈ vs, s.Built f.2 := by
  cases h with
  | simple _ hobject => exact absurd rfl (hobject _ _)
  | record hfields hnames hlink h =>
    obtain ⟨w, hw, hmem⟩ := hlink c hlinked.chainNamed?_eq
    have hkeeps := (hm.record name _ hfields).1.attr vs hnames
    have hsplit := Option.some.inj (hfields.symm.trans hlinked.fields?_eq)
    subst hsplit
    rw [map_append, map_cons] at hnames
    obtain ⟨us, rest, rfl, hus, hrest⟩ := map_eq_append_iff.1 hnames
    obtain ⟨f, ws, rfl, hf, hws⟩ := map_eq_cons_iff.1 hrest
    -- an instance gives one value for the name of the link
    have hlast := hkeeps f (by simp)
    have hsame := hkeeps _ hmem
    rw [hf] at hlast
    have hvalue : f.2 = wrapped c.wrappers w := Except.ok.inj (hlast.symm.trans hsame)
    have hentry : f = (c.link, wrapped c.wrappers w) := Prod.ext hf hvalue
    subst hentry
    exact ⟨us, w, ws, rfl, hw, (h _ hmem).of_wrapped, hus, hws, h⟩

end Faithful

end Xdr

/-! ## Encoding lists -/

namespace Xdr

open Pack

variable {v w : Value} {pack : Value → Write} {slots : List Slot} {a : ArmPlan} {n : Nat}

section

variable {e : Encoder} {p : Value → Write} {P : Value → Prop}
  (hparts : ∀ v items, P v → e.elements v = some items → ∀ w ∈ items, P w)
  (hpack : ∀ v, P v → e.pack v = p v)

lemma each_congr {w w' : Value → Write} {items : List Value} (h : ∀ v ∈ items, w v = w' v) :
    Write.each w items = Write.each w' items := by
  induction items with
  | nil => rfl
  | cons v rest ih =>
    obtain ⟨hv, hrest⟩ := List.forall_mem_cons.1 h
    rw [Write.each, Write.each, hv, ih hrest]

include hparts hpack

lemma Form.write_congr (form : Form) (hv : P v) :
    form.write e v = form.write { e with pack := p } v := by
  induction form generalizing v with
  | enum m => cases m <;> rfl
  | cls m => exact hpack v hv
  | optional item ih => rw [Form.write, Form.write, Write.optional, Write.optional, ih hv]
  | fixedArray n item ih =>
    show Write.fixedArray n (e.elements v) _ = Write.fixedArray n (e.elements v) _
    cases hitems : e.elements v with
    | none => rfl
    | some items =>
      rw [Write.fixedArray, Write.fixedArray,
        each_congr fun w hw => ih (hparts v items hv hitems w hw)]
  | array bound item ih =>
    show Write.array bound (e.elements v) _ = Write.array bound (e.elements v) _
    cases hitems : e.elements v with
    | none => rfl
    | some items =>
      rw [Write.array, Write.array, each_congr fun w hw => ih (hparts v items hv hitems w hw)]
  | _ => rfl

lemma slots_congr (m : Module) (owner : Value)
    (h : ∀ x ∈ slots, ∃ v, m.attr owner x.attr = .ok v ∧ P v) :
    Pack.slots m e owner slots = Pack.slots m { e with pack := p } owner slots := by
  induction slots with
  | nil => rfl
  | cons x rest ih =>
    obtain ⟨⟨v, hget, hv⟩, hrest⟩ := List.forall_mem_cons.1 h
    simp only [Pack.slots, hget, ih hrest, Form.write_congr hparts hpack x.form hv]

end

section

variable (m : Module) (s : Schema) (lib : Imports.Support)

lemma slots_plain (e : Encoder) (owner : Value) (slots : List Slot) :
    Pack.slots (m.plain s lib) e owner slots = Pack.slots m e owner slots := by
  induction slots with
  | nil => rfl
  | cons x rest ih => rw [Pack.slots, Pack.slots, ih, Module.plain_toGlobals]

lemma slots_append (e : Encoder) (owner : Value) (a b : List Slot) :
    Pack.slots m e owner (a ++ b) =
      Pack.slots m e owner a >>= fun _ => Pack.slots m e owner b := by
  induction a with
  | nil => exact (pure_bind _ _).symm
  | cons x rest ih =>
    rw [List.cons_append, Pack.slots, Pack.slots]
    cases m.attr owner x.attr with
    | error f => rfl
    | ok v => simp only [ih, bind_assoc]

lemma tails_of_isEmpty (e : Encoder) {c : ChainBody} (h : c.behind.isEmpty = true)
    (visited : List Value) : tails m e c visited = pure () := by
  induction visited with
  | nil => rfl
  | cons node rest ih =>
    rw [tails, ih, List.isEmpty_iff.1 h]
    rfl

end

section

variable {m : Module} {key : ClassKey} {names : List String} {vs : Fields}

lemma Module.Keeps.plain (h : m.Keeps key names) (s : Schema) (lib : Imports.Support) :
    (m.plain s lib).Keeps key names :=
  ⟨h.construct, h.attr, h.reachable, h.compares⟩

lemma own_record (hkeeps : m.Keeps key names) (hbody : m.body? key = some (.record slots))
    (e : Encoder) (n : Nat) :
    Pack.own m e n (.object key vs) = Pack.slots m e (.object key vs) slots := by
  simp only [Pack.own, hkeeps.reachable, hbody]
  exact pure_bind _ _

lemma own_chain (hkeeps : m.Keeps key names) {c : ChainBody} (hbody : m.body? key = some (.chain c))
    (e : Encoder) (n : Nat) :
    Pack.own m e n (.object key vs) = Pack.chain m e c n (.object key vs) [] := by
  simp only [Pack.own, hkeeps.reachable, hbody]
  exact pure_bind _ _

lemma own_arm (hkeeps : m.Keeps key names) {a : ArmBody} (hbody : m.body? key = some (.arm a))
    (e : Encoder) (n : Nat) :
    Pack.own m e n (.object key vs) = Pack.arm m e key a (.object key vs) := by
  simp only [Pack.own, hkeeps.reachable, hbody]
  exact pure_bind _ _

lemma slots_agree {s : Schema} (hkeeps : m.Keeps key names) (hnames : vs.map (·.1) = names)
    (hbuilt : ∀ f ∈ vs, s.Built f.2) {e : Encoder} (helements : e.elements = m.elements)
    {p : Value → Write}
    (hpack : ∀ v, s.Built v → v.depth < (Value.object key vs).depth → e.pack v = p v)
    (hslots : ∀ x ∈ slots, x.attr ∈ names) :
    Pack.slots m e (.object key vs) slots = Pack.slots m { e with pack := p } (.object key vs) slots := by
  let P : Value → Prop := fun v => s.Built v ∧ v.depth < (Value.object key vs).depth
  have hparts : ∀ v items, P v → e.elements v = some items → ∀ w ∈ items, P w := by
    rintro v items ⟨hv, hdepth⟩ hitems w hw
    rw [helements] at hitems
    obtain ⟨hbuilt, hle⟩ := hv.elements m hitems w hw
    exact ⟨hbuilt, hle.trans_lt hdepth⟩
  refine slots_congr hparts (fun v hv => hpack v hv.1 hv.2) m _ fun x hx => ?_
  have hmem := hslots x hx
  rw [← hnames] at hmem
  obtain ⟨f, hf, hname⟩ := List.mem_map.1 hmem
  refine ⟨f.2, ?_, hbuilt f hf, Value.depth_lt_object key hf⟩
  rw [← hname]
  exact hkeeps.attr vs hnames f hf

end

def Module.packDeep (m : Module) (c : Conduct) (v : Value) : Write := m.packAs c (v.depth + 1) v

def Module.deepEncoder (m : Module) (c : Conduct) : Encoder := ⟨c, m.packDeep c, m.elements⟩

namespace Faithful

variable {s : Schema} {lib : Imports.Support} {m : Module} (hm : Faithful s lib m)

include hm

omit hm in
lemma slotsOf_names (decls : List (String × Decl)) :
    ∀ x ∈ s.slotsOf lib decls, x.attr ∈ (s.fieldsOf decls).map (·.1) := by
  intro x hx
  obtain ⟨f, hf, rfl⟩ := List.mem_map.1 hx
  exact List.mem_map.2 ⟨_, List.mem_map_of_mem hf, rfl⟩

lemma check_plain {name : String} {p : UnionPlan} (hp : s.plan? name = some p) (ha : a ∈ p.arms)
    {vs : Fields} (hnames : vs.map (·.1) = (s.payload a).map (·.1) ++ [p.discField])
    (e : Encoder) (pack : Value → Write) (b : ArmBody) (disc : Value) :
    Pack.check m e (.arm name a.attr) b (.object (.arm name a.attr) vs) disc =
      Pack.check (m.plain s lib) { e with pack } (.arm name a.attr) b
        (.object (.arm name a.attr) vs) disc := by
  obtain ⟨hfree, hcheck⟩ := hm.check name p hp a ha
  have hlookup : vs.lookup "_check_discriminant" = none := by
    rw [List.lookup_eq_none_iff]
    intro f hf
    rw [← hnames] at hfree
    exact bne_iff_ne.2 fun heq => hfree (heq ▸ List.mem_map_of_mem hf)
  have hattr := hcheck vs hlookup
  have hmethod : (Value.thing "function").typeName = "function" := rfl
  simp only [Pack.check, Module.plain_toGlobals, hattr, hlookup, Option.isNone_none, hmethod,
    decide_true, Bool.and_self, ite_true, Pack.checkCases, m.hashable_plain]

lemma arm_plain {name : String} {p : UnionPlan} (hp : s.plan? name = some p) (ha : a ∈ p.arms)
    {vs : Fields} (hnames : vs.map (·.1) = (s.payload a).map (·.1) ++ [p.discField])
    (hbuilt : ∀ f ∈ vs, s.Built f.2) {e : Encoder} (helements : e.elements = m.elements)
    (hpack : ∀ v, s.Built v → v.depth < (Value.object (.arm name a.attr) vs).depth → e.pack v = pack v) :
    Pack.arm m e (.arm name a.attr) (s.armBodyOf lib p a) (.object (.arm name a.attr) vs) =
      Pack.arm (m.plain s lib) { e with pack } (.arm name a.attr) (s.armBodyOf lib p a)
        (.object (.arm name a.attr) vs) := by
  have hslots : ∀ x ∈ (s.armBodyOf lib p a).disc :: (s.armBodyOf lib p a).payload.toList,
      x.attr ∈ (s.payload a).map (·.1) ++ [p.discField] := by
    intro x hx
    have hmem := List.mem_map_of_mem (f := fun x : Slot => (x.attr, x.form)) hx
    rw [armBodyOf_slots] at hmem
    rcases List.mem_cons.1 hmem with hdisc | hpayload
    · exact List.mem_append_right _ (List.mem_singleton.2 (congrArg (·.1) hdisc))
    · exact List.mem_append_left _ (List.mem_map_of_mem (f := (·.1)) hpayload)
  have hagree := slots_agree (hm.arm name p hp a ha) hnames hbuilt helements hpack hslots
  rw [Pack.arm, Pack.arm, Module.plain_toGlobals]
  cases m.attr (.object (.arm name a.attr) vs) (s.armBodyOf lib p a).disc.attr with
  | error f => rfl
  | ok disc =>
    dsimp only
    rw [hm.check_plain hp ha hnames e pack, slots_plain, hagree]

omit hm in
lemma own_simple (hobject : ∀ key fields, v ≠ .object key fields) (e e' : Encoder) (n n' : Nat) :
    Pack.own m e n v = Pack.own (m.plain s lib) e' n' v := by
  cases v with
  | object key fields => exact absurd rfl (hobject key fields)
  | _ => rfl

lemma body_arm_plain {name : String} {p : UnionPlan} (hp : s.plan? name = some p)
    (ha : a ∈ p.arms) :
    (m.plain s lib).body? (.arm name a.attr) = some (.arm (s.armBodyOf lib p a)) := by
  rw [m.body?_plain, hm.armBody name p hp a ha]
  rfl

lemma own_agrees (hv : s.Built v)
    (hnode : ∀ name vs c link, v = .object (.type name) vs → ¬ s.Linked name c link) {e : Encoder}
    (helements : e.elements = m.elements)
    (hpack : ∀ w, s.Built w → w.depth < v.depth → e.pack w = pack w) (n n' : Nat) :
    Pack.own m e n v = Pack.own (m.plain s lib) { e with pack } n' v := by
  cases hv with
  | simple _ hobject => exact own_simple hobject e _ n n'
  | list => rfl
  | @record name fields vs hfields hnames _ hbuilt =>
    have hkeeps := (hm.record name fields hfields).1
    obtain ⟨decls, rfl, hplain⟩ := hm.plain_record hfields
    rcases hm.plain_cases hfields with hsame | ⟨c, link, hlinked⟩
    · rw [own_record hkeeps (hsame.trans hplain), own_record (hkeeps.plain s lib) hplain,
        slots_plain]
      exact slots_agree hkeeps hnames hbuilt helements hpack (slotsOf_names decls)
    · exact absurd hlinked (hnode name vs c link rfl)
  | @arm name p a vs hp ha hnames hbuilt =>
    have hkeeps := hm.arm name p hp a ha
    rw [own_arm hkeeps (hm.armBody name p hp a ha),
      own_arm (hkeeps.plain s lib) (hm.body_arm_plain hp ha)]
    exact hm.arm_plain hp ha hnames hbuilt helements hpack

lemma own_plain (hv : s.Built v) {e : Encoder} (helements : e.elements = m.elements)
    (hpack : ∀ w, s.Built w → w.depth < v.depth → e.pack w = pack w) (n n' : Nat) :
    Pack.own (m.plain s lib) e n v = Pack.own (m.plain s lib) { e with pack } n' v := by
  cases hv with
  | simple _ hobject =>
    exact (own_simple hobject e e n n).symm.trans (own_simple hobject e { e with pack } n n')
  | list => rfl
  | @record name fields vs hfields hnames _ hbuilt =>
    obtain ⟨decls, rfl, hplain⟩ := hm.plain_record hfields
    have hkeeps := (hm.record name _ hfields).1.plain s lib
    rw [own_record hkeeps hplain, own_record hkeeps hplain]
    exact slots_agree hkeeps hnames hbuilt helements hpack (slotsOf_names decls)
  | @arm name p a vs hp ha hnames hbuilt =>
    have hkeeps := (hm.arm name p hp a ha).plain s lib
    have hbody := hm.body_arm_plain hp ha
    rw [own_arm hkeeps hbody, own_arm hkeeps hbody]
    exact (hm.arm_plain hp ha hnames hbuilt helements fun _ _ _ => rfl).symm.trans
      (hm.arm_plain hp ha hnames hbuilt helements hpack)

lemma packAs_plain (c : Conduct) (hv : s.Built v) (hn : v.depth < n) :
    (m.plain s lib).packAs c n v =
      Pack.own (m.plain s lib) ((m.plain s lib).deepEncoder c) 0 v := by
  induction n using Nat.strong_induction_on generalizing v with
  | _ n ih =>
    cases n with
    | zero => omega
    | succ n =>
      rw [Module.packAs]
      refine hm.own_plain hv rfl (fun w hw hdepth => ?_) (n + 1) 0
      show (m.plain s lib).packAs c n w = (m.plain s lib).packAs c (w.depth + 1) w
      rw [ih n (Nat.lt_succ_self n) hw (by omega), ih (w.depth + 1) (by omega) hw (Nat.lt_succ_self _)]

lemma packDeep_plain (c : Conduct) (hv : s.Built v) :
    (m.plain s lib).packDeep c v =
      Pack.own (m.plain s lib) ((m.plain s lib).deepEncoder c) 0 v :=
  hm.packAs_plain c hv (Nat.lt_succ_self _)

section

variable {name : String} {c : Chain} {link : Shape} (conduct : Conduct)

lemma write_link {shape final : Shape} {wrappers : List String}
    (hwraps : s.Wraps shape wrappers final)
    (hfinal : s.formOf final = .optional (.cls (.cls (.type name))))
    (hbuilt : s.Built (wrapped wrappers w)) :
    (s.formOf shape).write ((m.plain s lib).deepEncoder conduct) (wrapped wrappers w) =
      Write.flag (!w.isNull) >>= fun _ =>
        if w.isNull then pure ()
        else Pack.own (m.plain s lib) ((m.plain s lib).deepEncoder conduct) 0 w := by
  induction hwraps with
  | refl shape =>
    have hpack := hm.packDeep_plain conduct hbuilt
    show (s.formOf shape).write _ w = _
    rw [hfinal, Form.write, Write.optional]
    cases hnull : w.isNull with
    | true => exact (bind_pure _).symm
    | false => exact congrArg (Write.flag true >>= fun _ => ·) hpack
  | @cons other t d length inner final ht hd h ih =>
    obtain ⟨hform, -, hfields⟩ := Schema.formNamed_of_typedef ht hd
    have hkeeps := (hm.record other _ hfields).1
    have hattr := hkeeps.attr [("value", wrapped inner w)] rfl _ (.head _)
    have hpack := hm.packDeep_plain conduct hbuilt
    rw [wrapped_cons, own_record (hkeeps.plain s lib) (hm.plain_typedef ht hd), slots_plain] at hpack
    show (s.formNamed other).write _ _ = _
    rw [hform, wrapped_cons]
    refine hpack.trans ?_
    simp only [Pack.slots, Schema.slotOf, hattr]
    rw [ih hfinal (hbuilt.field (.head _)), bind_assoc]
    refine congrArg (Write.flag _ >>= ·) (funext fun _ => ?_)
    exact bind_pure _

variable (hlinked : s.Linked name c link)

include hlinked

lemma own_node {us ws : Fields} (hbuilt : ∀ f ∈ c.node us w ws, s.Built f.2)
    (hus : us.map (·.1) = (s.fieldsOf c.before).map (·.1))
    (hws : ws.map (·.1) = (s.fieldsOf c.behind).map (·.1)) :
    let e := (m.plain s lib).deepEncoder conduct
    let node := Value.object (.type name) (c.node us w ws)
    Pack.own (m.plain s lib) e 0 node =
      Pack.slots m e node (s.slotsOf lib c.before) >>= fun _ =>
        Write.flag (!w.isNull) >>= fun _ =>
          (if w.isNull then pure () else Pack.own (m.plain s lib) e 0 w) >>= fun _ =>
            Pack.slots m e node (s.slotsOf lib c.behind) := by
  intro e node
  have hkeeps := (hm.record name _ hlinked.fields?_eq).1
  obtain ⟨bound, hwraps⟩ := hlinked.wraps
  have hlink : (c.link, wrapped c.wrappers w) ∈ c.node us w ws := by simp
  have hattr := hkeeps.attr _ (by simp [hus, hws]) _ hlink
  have hwrite := hm.write_link conduct hwraps (hlinked.formOf_next bound) (hbuilt _ hlink)
  rw [own_record (hkeeps.plain s lib) (hm.plain_linked hlinked).2, slots_plain, slots_append,
    Pack.slots]
  refine congrArg (Pack.slots m e node _ >>= ·) (funext fun _ => ?_)
  simp only [Schema.slotOf, hattr]
  rw [hwrite, bind_assoc]

lemma chain_eq {p : Value → Write} {node : Value} (hnode : node.IsNode name)
    (hbuilt : s.Built node) (hn : node.depth < n)
    (hpack : ∀ v, s.Built v → v.depth < node.depth → p v = (m.plain s lib).packDeep conduct v)
    (visited : List Value) :
    let e := (m.plain s lib).deepEncoder conduct
    Pack.chain m { e with pack := p } (s.chainBodyOf lib c) n node visited =
      (if node.isNull then pure () else Pack.own (m.plain s lib) e 0 node) >>= fun _ =>
        tails m { e with pack := p } (s.chainBodyOf lib c) visited := by
  intro e
  induction n generalizing node visited with
  | zero => omega
  | succ n ih =>
    rcases hnode with rfl | ⟨vs, rfl⟩
    · -- the end of the list
      simp only [Pack.chain, Value.isNull, ite_true, pure_bind]
      split_ifs with hempty
      · rw [tails_of_isEmpty m _ hempty]
      · rw [hm.reverse]
    · obtain ⟨us, w, ws, rfl, hw, hwbuilt, hus, hws, hparts⟩ := hm.built_node hlinked hbuilt
      have hkeeps := (hm.record name _ hlinked.fields?_eq).1
      have hlt := c.depth_lt_node name us w ws
      have hslots : ∀ decls : List (String × Decl), (∀ x ∈ (s.fieldsOf decls).map (·.1),
            x ∈ (s.fieldsOf c.before ++ (c.link, s.formOf link) :: s.fieldsOf c.behind).map (·.1)) →
          Pack.slots m { e with pack := p } (.object (.type name) (c.node us w ws))
              (s.slotsOf lib decls) =
            Pack.slots m e (.object (.type name) (c.node us w ws)) (s.slotsOf lib decls) := by
        intro decls hdecls
        refine slots_agree hkeeps (by simp [hus, hws]) hparts (e := { e with pack := p }) rfl hpack
          fun x hx => hdecls _ (slotsOf_names decls x hx)
      have hbefore := hslots c.before (by simp +contextual)
      have hbehind := hslots c.behind (by simp +contextual)
      have hnext := hm.next_node hlinked (w := w) hus hws
      have hrest := ih hw hwbuilt (by omega) (fun v hv hdepth => hpack v hv (hdepth.trans hlt))
        (.object (.type name) (c.node us w ws) :: visited)
      rw [Pack.chain, if_neg (by simp [Value.isNull]), hnext]
      dsimp only
      rw [hrest, tails]
      simp only [Schema.chainBodyOf] at hbefore hbehind ⊢
      rw [hbefore, hbehind]
      simp only [Value.isNull, Bool.false_eq_true, ite_false]
      rw [hm.own_node conduct hlinked hparts hus hws]
      simp only [bind_assoc]
      rfl

end

lemma pack_plain {n' : Nat} (hv : s.Built v) (hn : v.depth < n) (hn' : v.depth < n') :
    m.pack n v = (m.plain s lib).packAs m.conduct n' v := by
  induction n using Nat.strong_induction_on generalizing v n' with
  | _ n ih =>
    cases n with
    | zero => omega
    | succ n =>
      have hpack : ∀ w, s.Built w → w.depth < v.depth →
          m.pack n w = (m.plain s lib).packDeep m.conduct w := fun w hw hdepth =>
        ih n (Nat.lt_succ_self n) hw (by omega) (Nat.lt_succ_self _)
      rw [hm.packAs_plain m.conduct hv hn', Module.pack]
      by_cases hnode : ∃ name vs c link, v = .object (.type name) vs ∧ s.Linked name c link
      · obtain ⟨name, vs, c, link, rfl, hlinked⟩ := hnode
        rw [own_chain (hm.record name _ hlinked.fields?_eq).1 (hm.plain_linked hlinked).1]
        refine (hm.chain_eq m.conduct hlinked (.inr ⟨vs, rfl⟩) hv hn hpack []).trans ?_
        exact bind_pure _
      · refine hm.own_agrees hv (fun name vs c link hv hlinked => ?_) rfl hpack (n + 1) 0
        exact hnode ⟨name, vs, c, link, hv, hlinked⟩

end Faithful

end Xdr
