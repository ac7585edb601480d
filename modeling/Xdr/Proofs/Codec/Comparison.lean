import Xdr.Proofs.Codec.Chains

/-!
# Equality

A value of a type equals the value that a reader gives for it, which differs in the storage of bytes
alone.
-/

namespace Xdr

open List Equality

open Value (integer? object viewed viewed_object)

variable {s : Schema} {lib : Imports.Support} {m : Module}
  {self : Value → Value → Except Fault Value} {storage : Storage} {v : Value} {n : Nat}

lemma numbers_eq (h : storage.isPlain = true) (bs : List UInt8) :
    numbers bs storage = bs.map fun b => (b.toNat : Int) := by
  have helements : (Value.bytes bs storage).elements? =
      some (bs.map fun b => Value.int b.toNat) := by
    cases storage with
    | pairs => cases h
    | _ => rfl
  simp [numbers, helements, Function.comp_def, integer?]

lemma storedBytes_view (h : storage.isPlain = true) (bs : List UInt8) :
    storedBytes bs .view bs storage = true := by
  have hview : numbers bs .view = _ := numbers_eq (by decide) bs
  simp [storedBytes, numbers_eq h, hview]

namespace Faithful

variable (hm : Faithful s lib m) {F D : UInt64 → Prop}

include hm

lemma pairs_viewed {items : List Value} (h : ∀ v ∈ items, self v.viewed v = .ok (.bool true)) :
    pairs m self (items.map viewed) items = .ok true := by
  have htruth := hm.truth (.bool true) (by simp)
  induction items with
  | nil => rfl
  | cons v rest ih =>
    have hrest := ih fun w hw => h w (mem_cons_of_mem v hw)
    rw [map_cons, pairs, hrest, h v (.head _)]
    split_ifs
    · rfl
    · show (m.truth (.bool true) >>= _) = _
      rw [htruth]
      rfl

omit hm in
lemma attrs_eq {owner : Value} {slots : List Slot} {vs : Fields}
    (hslots : slots.map (·.attr) = vs.map (·.1)) (hattr : ∀ f ∈ vs, m.attr owner f.1 = .ok f.2) :
    attrs m owner slots = .ok (vs.map (·.2)) := by
  induction slots generalizing vs with
  | nil =>
    obtain rfl := map_eq_nil_iff.1 hslots.symm
    rfl
  | cons slot rest ih =>
    obtain ⟨f, vs, rfl, hf, hvs⟩ := map_eq_cons_iff.1 hslots.symm
    have hget : m.attr owner slot.attr = .ok f.2 :=
      (congrArg (m.attr owner) hf.symm).trans (hattr f (.head _))
    rw [attrs, hget, ih hvs.symm fun g hg => hattr g (mem_cons_of_mem f hg)]
    rfl

section

variable {name : String} {c : Chain} {link : Shape} (hlinked : s.Linked name c link)

include hlinked

lemma attrs_node {us ws : Fields} (w : Value)
    (hus : us.map (·.1) = (s.fieldsOf c.before).map (·.1))
    (hws : ws.map (·.1) = (s.fieldsOf c.behind).map (·.1)) :
    attrs m (.object (.type name) (c.node us w ws))
      ((s.chainBodyOf lib c).before ++ (s.chainBodyOf lib c).behind) =
        .ok ((us ++ ws).map (·.2)) := by
  have hattr := (hm.record name _ hlinked.fields?_eq).1.attr (c.node us w ws) (by simp [hus, hws])
  have hslots : ((s.chainBodyOf lib c).before ++ (s.chainBodyOf lib c).behind).map (·.attr) =
      (us ++ ws).map (·.1) := by
    simp [Schema.chainBodyOf, Schema.slotsOf, Schema.slotOf, hus, hws, Schema.fieldsOf,
      Function.comp_def]
  refine attrs_eq hslots fun f hf => hattr f ?_
  simp only [mem_append, mem_cons] at hf ⊢
  tauto

lemma chain_viewed {node : Value}
    (hself : ∀ form v, v.depth < node.depth → s.Types F D form v →
      self v.viewed v = .ok (.bool true))
    (hnode : s.Types F D (.optional (.cls (.cls (.type name)))) node)
    (hdepth : node.depth < n) :
    chain m self (s.chainBodyOf lib c) n node.viewed node = .ok true := by
  induction n generalizing node with
  | zero => omega
  | succ n ih =>
    cases hnode with
    | absent => simp [chain, Value.viewed_null, Value.isNull]
    | present hnode =>
    cases hnode with
    | cls hnode =>
    obtain ⟨us, w, ws, rfl, hus, hw, hws⟩ := (hlinked.typed_iff node).1 hnode
    have hviewed : (object (.type name) (c.node us w ws)).viewed =
        .object (.type name) (us.map (fun f => (f.1, f.2.viewed)) ++
          (c.link, wrapped c.wrappers w.viewed) :: ws.map fun f => (f.1, f.2.viewed)) := by
      rw [viewed_object, map_append, map_cons, viewed_wrapped]
    have hnames : ∀ vs : Fields,
        (vs.map fun f => (f.1, f.2.viewed)).map (·.1) = vs.map (·.1) := by simp
    have hvalues : ((us.map fun f => (f.1, f.2.viewed)) ++ ws.map fun f => (f.1, f.2.viewed)).map
        (·.2) = ((us ++ ws).map (·.2)).map viewed := by simp [Function.comp_def]
    have hpairs : pairs m self (((us ++ ws).map (·.2)).map viewed)
        ((us ++ ws).map (·.2)) = .ok true := by
      refine hm.pairs_viewed fun v hv => ?_
      obtain ⟨f, hf, rfl⟩ := mem_map.1 hv
      have hmem : f ∈ c.node us w ws := by
        simp only [mem_append, mem_cons] at hf ⊢
        tauto
      obtain ⟨form, hform⟩ : ∃ form, s.Types F D form f.2 := by
        rcases mem_append.1 hf with hf | hf
        · exact hus.exists_form f hf
        · exact hws.exists_form f hf
      exact hself form f.2 (Value.depth_lt_object _ hmem) hform
    have hlt := c.depth_lt_node name us w ws
    have hrest := ih (fun form v hv => hself form v (hv.trans hlt)) hw (by omega)
    rw [hviewed, chain, if_neg (by simp [Value.isNull])]
    dsimp only
    rw [hm.attrs_node hlinked _ ((hnames us).trans hus.names) ((hnames ws).trans hws.names),
      hm.attrs_node hlinked _ hus.names hws.names, hvalues,
      hm.next_node hlinked ((hnames us).trans hus.names) ((hnames ws).trans hws.names),
      hm.next_node hlinked hus.names hws.names]
    show (pairs m self _ _ >>= _) = _
    rw [hpairs]
    exact hrest

end

lemma equalAt_viewed (hF : ∀ bits, F bits → ¬ Number.IsNan bits.toNat)
    (hD : ∀ bits, D bits → ¬ Number.IsNan bits.toNat) {form : Form}
    (h : s.Types F D form v) (hdepth : v.depth < n) :
    m.equalAt n v.viewed v = .ok (.bool true) := by
  induction n generalizing form v with
  | zero => omega
  | succ n ih =>
    have hrefused : ∀ a b, isRefused m a b = false := by
      simp [isRefused, hm.unspoilt]
    have hitems : ∀ {item : Form} {items : List Value}, (Value.list items).depth < n + 1 →
        (∀ v ∈ items, s.Types F D item v) →
        m.equalAt (n + 1) (Value.list items).viewed (.list items) = .ok (.bool true) := by
      intro item items hdeep htyped
      have hpairs : pairs m (m.equalAt n) (items.map viewed) items = .ok true := by
        refine hm.pairs_viewed fun v hv => ?_
        have hlt := Value.depth_lt_list hv
        exact ih (htyped v hv) (by omega)
      simp only [Value.viewed_list, Module.equalAt, length_map, ite_true, hpairs, Except.map]
    induction h with
    | scalar h =>
      cases h with
      | float h => simp [Module.equalAt, viewed, hrefused, plain,
          Number.equalsDouble_self (hF _ h)]
      | double h => simp [Module.equalAt, viewed, hrefused, plain,
          Number.equalsDouble_self (hD _ h)]
      | _ => simp [Module.equalAt, viewed, hrefused, plain, Value.wholeNumber?,
          integer?]
    | enum => simp [Module.equalAt, viewed, hrefused, plain, Value.wholeNumber?,
          integer?]
    | cls h =>
      have hbelow : ∀ {key : ClassKey} {vs : Fields},
          (object key vs).depth < n + 1 →
          (∀ f ∈ vs, ∃ form, s.Types F D form f.2) →
          pairs m (m.equalAt n) ((vs.map fun f => (f.1, f.2.viewed)).map (·.2))
            (vs.map (·.2)) = .ok true := by
        intro key vs hdeep hvs
        have hvalues : (vs.map fun f => (f.1, f.2.viewed)).map (·.2) =
            (vs.map (·.2)).map viewed := by simp [Function.comp_def]
        rw [hvalues]
        refine hm.pairs_viewed fun v hv => ?_
        obtain ⟨f, hf, rfl⟩ := mem_map.1 hv
        obtain ⟨form, hform⟩ := hvs f hf
        have hlt := Value.depth_lt_object key hf
        exact ih hform (by omega)
      cases h with
      | @record name fields vs hfields htyped =>
        have hkeeps := (hm.record name _ hfields).1
        rcases hm.body_cases hfields with ⟨decls, rfl, hbody⟩ | ⟨c, link, hbody, hlinked⟩
        · have hpairs := hbelow hdepth htyped.exists_form
          simp only [viewed_object, Module.equalAt, hkeeps.compares, decide_true, Bool.and_self,
            ite_true, hbody, hpairs, Except.map]
        · have hself : ∀ form v, v.depth < (object (.type name) vs).depth →
              s.Types F D form v → m.equalAt n v.viewed v = .ok (.bool true) :=
            fun form v hv h => ih h (by omega)
          have hchain := hm.chain_viewed hlinked hself (.present (.cls (.record hfields htyped))) hdepth
          rw [viewed_object] at hchain ⊢
          simp only [Module.equalAt, hkeeps.compares, decide_true, Bool.and_self,
            ite_true, hbody, hchain, Except.map]
      | @union name p a disc vs hplan harm hdisc htyped =>
        have hkeeps := hm.arm name p hplan a harm
        have hpairs := hbelow hdepth fun f hf => by
          rcases mem_append.1 hf with hf | hf
          · exact htyped.exists_form f hf
          · obtain rfl := mem_singleton.1 hf
            exact ⟨_, hdisc⟩
        simp only [viewed_object, Module.equalAt, hkeeps.compares, decide_true, Bool.and_self,
          ite_true, hm.armBody name p hplan a harm, hpairs, Except.map]
    | fixedOpaque h | varOpaque h =>
      simp [Module.equalAt, viewed, hrefused, plain, storedBytes_view h]
    | string | absent => simp [Module.equalAt, viewed, hrefused, plain]
    | present _ ih => exact ih hdepth
    | fixedArray h | array h => exact hitems hdepth h

lemma equal_viewed (hF : ∀ bits, F bits → ¬ Number.IsNan bits.toNat)
    (hD : ∀ bits, D bits → ¬ Number.IsNan bits.toNat) {name : String} (h : s.HasType F D name v) :
    m.equal v.viewed v = .ok (.bool true) := by
  rw [Module.equal, Value.depth_viewed, Nat.min_self]
  exact hm.equalAt_viewed hF hD h (by omega)

end Faithful

end Xdr
