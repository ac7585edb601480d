import Xdr.Proofs.Prefixes
import Xdr.Proofs.Loops.Measuring
import Xdr.Proofs.Loops.Reading

/-!
# Comparing, and all loops

The loop over two lists compares the fields around the links of two nodes and goes on with the nodes
behind them, and a list that ends before the other differs from it.
-/

namespace Xdr

open Equality List

variable {a b v : Value} {self : Value → Value → Except Fault Value} {vs : Fields}
  {key : ClassKey} {n : Nat}

def Equality.alike (eq : Value → Value → Bool) : List Value → List Value → Bool
  | [], [] => true
  | a :: as, b :: bs => (isSame a b || eq a b) && alike eq as bs
  | _, _ => false

def Equality.level (eq : Value → Value → Bool) (a b : Value) : Bool :=
  match a, b with
  | .list xs, .list ys => decide (xs.length = ys.length) && alike eq xs ys
  | .object k xs, .object l ys => decide (k = l) && alike eq (xs.map (·.2)) (ys.map (·.2))
  | .object _ _, _ => false
  | _, .object _ _ => false
  | _, _ => plain a b

lemma alike_append {eq : Value → Value → Bool} {a b : List Value} (h : a.length = b.length)
    (as bs : List Value) : alike eq (a ++ as) (b ++ bs) = (alike eq a b && alike eq as bs) := by
  induction a generalizing b with
  | nil =>
    obtain rfl := eq_nil_of_length_eq_zero h.symm
    rfl
  | cons x rest ih =>
    cases b with
    | nil => cases h
    | cons y others =>
      simp only [cons_append, alike, ih (Nat.succ.inj h), Bool.and_assoc]

structure Module.Compares (m : Module) (s : Schema) : Prop where
  truth : ∀ b, m.truth (.bool b) = .ok b
  accepts : ∀ a b, isRefused m a b = false
  fields : ∀ key vs, s.Built (.object key vs) → comparesFields m (.object key vs) = true
  different : ∀ a b, s.Built a → s.Built b → different m a b = .ok (.bool false)

namespace Module.Compares

variable {m : Module} {s : Schema} (h : m.Compares s) {eq : Value → Value → Bool}

include h

lemma pairs_eq {as bs : List Value} (hself : ∀ a ∈ as, ∀ b ∈ bs, self a b = .ok (.bool (eq a b))) :
    pairs m self as bs = .ok (alike eq as bs) := by
  induction as generalizing bs with
  | nil => cases bs <;> rfl
  | cons a as ih =>
    cases bs with
    | nil => rfl
    | cons b bs =>
      have hfirst := hself a (.head _) b (.head _)
      have hrest := ih fun x hx y hy =>
        hself x (mem_cons_of_mem a hx) y (mem_cons_of_mem b hy)
      rw [pairs, alike, hrest, hfirst]
      cases isSame a b with
      | true => rfl
      | false =>
        simp only [Bool.false_eq_true, ite_false, bind, Except.bind, h.truth]
        cases eq a b <;> rfl

lemma equalAt_succ (ha : s.Built a) (hb : s.Built b)
    (hbody : ∀ key xs ys, a = .object key xs → b = .object key ys →
      ∀ c, m.body? key ≠ some (.chain c))
    (hself : ∀ x y, s.Built x → s.Built y → x.depth < a.depth → y.depth < b.depth →
      m.equalAt n x y = .ok (.bool (eq x y))) :
    m.equalAt (n + 1) a b = .ok (.bool (level eq a b)) := by
  have hdifferent := h.different a b ha hb
  have haccepts := h.accepts a b
  cases a with
  | list xs =>
    cases b with
    | list ys =>
      have hpairs : pairs m (m.equalAt n) xs ys = .ok (alike eq xs ys) := by
        refine h.pairs_eq fun x hx y hy => ?_
        cases ha with
        | simple hlist => exact absurd rfl (hlist _)
        | list ha =>
          cases hb with
          | simple hlist => exact absurd rfl (hlist _)
          | list hb =>
            exact hself x y (ha x hx) (hb y hy) (Value.depth_lt_list hx) (Value.depth_lt_list hy)
      simp only [Module.equalAt, level, hpairs]
      split_ifs with hlength
      · simp [hlength, Except.map]
      · simp [hlength]
    | object l ys => simp only [Module.equalAt, level, hdifferent]
    | _ => simp only [Module.equalAt, level, haccepts, Bool.false_eq_true, ite_false]
  | object k xs =>
    cases b with
    | object l ys =>
      by_cases hkey : k = l
      · subst hkey
        have hpairs : pairs m (m.equalAt n) (xs.map (·.2)) (ys.map (·.2)) =
            .ok (alike eq (xs.map (·.2)) (ys.map (·.2))) := by
          refine h.pairs_eq fun x hx y hy => ?_
          obtain ⟨f, hf, rfl⟩ := mem_map.1 hx
          obtain ⟨g, hg, rfl⟩ := mem_map.1 hy
          exact hself _ _ (ha.field hf) (hb.field hg) (Value.depth_lt_object k hf)
            (Value.depth_lt_object k hg)
        have hchain := hbody k xs ys rfl rfl
        simp only [Module.equalAt, level, h.fields k xs ha, decide_true, Bool.and_self, ite_true,
          Bool.true_and, hpairs]
        rfl
      · simp only [Module.equalAt, level, hkey, decide_false, Bool.false_and, Bool.false_eq_true,
          ite_false, hdifferent]
    | _ => simp only [Module.equalAt, level, hdifferent]
  | _ =>
    cases b with
    | object l ys => simp only [Module.equalAt, level, hdifferent]
    | _ => simp only [Module.equalAt, level, haccepts, Bool.false_eq_true, ite_false]

end Module.Compares

def Module.equalDeep (m : Module) (a b : Value) : Bool :=
  match m.equalAt (min a.depth b.depth + 1) a b with
  | .ok (.bool answer) => answer
  | _ => false

namespace Faithful

variable {s : Schema} {lib : Imports.Support} {m : Module} (hm : Faithful s lib m)

include hm

lemma compares_built (h : s.Built (.object key vs)) :
    comparesFields m (.object key vs) = true := by
  cases h with
  | simple _ hobject => exact absurd rfl (hobject _ _)
  | @record name fields _ hfields => exact (hm.record name fields hfields).1.compares vs
  | @arm name p a _ hp ha => exact (hm.arm name p hp a ha).compares vs

lemma veil?_built (h : s.Built v) : m.veil? v = none := by
  cases v with
  | object key vs =>
    have hcompares := hm.compares_built h
    simp only [comparesFields, Bool.and_eq_true, Option.isNone_iff_eq_none] at hcompares
    exact hcompares.2
  | _ => rfl

lemma answer_built (hbuiltin : m.builtin "NotImplemented" = .ok none) (ha : s.Built a)
    (hb : s.Built b) : answer m a b = .ok none := by
  cases a with
  | object key vs =>
    have hcompares := hm.compares_built ha
    simp only [comparesFields, Bool.and_eq_true, Bool.not_eq_true'] at hcompares
    simp only [answer, hcompares.1.1, ite_true, hcompares.1.2, Bool.false_eq_true, ite_false,
      forIn_cons, forIn_nil, hm.veil?_built ha, hm.veil?_built hb, Option.isSome_none,
      pure_bind]
    exact hbuiltin
  | _ => simp [answer, hm.unspoilt]

lemma compares (hbuiltin : m.builtin "NotImplemented" = .ok none) : m.Compares s where
  truth b := hm.truth (.bool b) (by simp)
  accepts a b := by simp [isRefused, hm.unspoilt]
  fields _ _ h := hm.compares_built h
  different a b ha hb := by
    have hab := hm.answer_built hbuiltin ha hb
    have hba := hm.answer_built hbuiltin hb ha
    unfold different
    cases asksSecond a b
    · simp only [Bool.false_eq_true, ite_false, hab, hba]
      rfl
    · simp only [ite_true, hab, hba]
      rfl

lemma compares_plain (hbuiltin : m.builtin "NotImplemented" = .ok none) :
    (m.plain s lib).Compares s where
  truth := (hm.compares hbuiltin).truth
  accepts := (hm.compares hbuiltin).accepts
  fields := (hm.compares hbuiltin).fields
  different a b ha hb := (m.different_plain s lib a b).trans
    ((hm.compares hbuiltin).different a b ha hb)

variable (hbuiltin : m.builtin "NotImplemented" = .ok none)

lemma plain_not_chain (h : s.Built (.object key vs)) (c : ChainBody) :
    (m.plain s lib).body? key ≠ some (.chain c) := by
  cases h with
  | simple _ hobject => exact absurd rfl (hobject _ _)
  | @record name fields _ hfields =>
    obtain ⟨decls, -, hbody⟩ := hm.plain_record hfields
    simp [hbody]
  | @arm name p a _ hp ha =>
    rw [m.body?_plain, hm.armBody name p hp a ha]
    simp [Schema.plainBody]

lemma linked_of_chain (h : s.Built (.object key vs)) {body : ChainBody}
    (hbody : m.body? key = some (.chain body)) :
    ∃ name c link, key = .type name ∧ s.Linked name c link := by
  cases h with
  | simple _ hobject => exact absurd rfl (hobject _ _)
  | @record name fields _ hfields =>
    rcases hm.plain_cases hfields with hsame | ⟨c, link, hlinked⟩
    · obtain ⟨decls, -, hplain⟩ := hm.plain_record hfields
      cases hbody.symm.trans (hsame.trans hplain)
    · exact ⟨name, c, link, rfl, hlinked⟩
  | @arm name p a _ hp ha => cases hbody.symm.trans (hm.armBody name p hp a ha)

include hbuiltin

lemma equalAt_plain (ha : s.Built a) (hb : s.Built b) (hn : min a.depth b.depth < n) :
    (m.plain s lib).equalAt n a b =
      .ok (.bool (level (m.plain s lib).equalDeep a b)) := by
  induction n using Nat.strong_induction_on generalizing a b with
  | _ n ih =>
    cases n with
    | zero => omega
    | succ n =>
      refine (hm.compares_plain hbuiltin).equalAt_succ ha hb (fun key xs ys hx _ c => ?_)
        fun x y hx hy hxa hyb => ?_
      · subst hx
        exact hm.plain_not_chain ha c
      · have hdeep := ih (min x.depth y.depth + 1) (by omega) hx hy (Nat.lt_succ_self _)
        have hvalue : (m.plain s lib).equalDeep x y =
            level (m.plain s lib).equalDeep x y := by
          conv_lhs => rw [Module.equalDeep, hdeep]
        rw [ih n (Nat.lt_succ_self n) hx hy (by omega), hvalue]

lemma equalDeep_plain (ha : s.Built a) (hb : s.Built b) :
    (m.plain s lib).equalDeep a b = level (m.plain s lib).equalDeep a b := by
  have hdeep := hm.equalAt_plain hbuiltin ha hb (Nat.lt_succ_self _)
  conv_lhs => rw [Module.equalDeep, hdeep]

omit hm hbuiltin in
lemma isSame_node {name : String} (h : v.IsNode name) (w : Value) : isSame v w = false := by
  rcases h with rfl | ⟨fields, rfl⟩ <;> rfl

lemma equalDeep_wrapped {name : String} {w : Value} (hv : v.IsNode name) {wrappers : List String}
    (hvs : s.Built (wrapped wrappers v)) (hws : s.Built (wrapped wrappers w)) :
    (isSame (wrapped wrappers v) (wrapped wrappers w) ||
        (m.plain s lib).equalDeep (wrapped wrappers v) (wrapped wrappers w)) =
      (m.plain s lib).equalDeep v w := by
  induction wrappers with
  | nil =>
    show (isSame v w || (m.plain s lib).equalDeep v w) = _
    rw [isSame_node hv w, Bool.false_or]
  | cons other rest ih =>
    have hrest := ih (hvs.field (.head _)) (hws.field (.head _))
    have hobjects : isSame (wrapped (other :: rest) v) (wrapped (other :: rest) w) = false := rfl
    rw [hobjects, hm.equalDeep_plain hbuiltin hvs hws, wrapped_cons, wrapped_cons]
    simp only [level, decide_true, Bool.true_and, Bool.false_or, map_cons, map_nil, alike,
      Bool.and_true, hrest]

section

variable {name : String} {c : Chain} {link : Shape} (hlinked : s.Linked name c link)

include hlinked

lemma chain_equal (ha : a.IsNode name) (hb : b.IsNode name) (hab : s.Built a) (hbb : s.Built b)
    (hn : min a.depth b.depth < n)
    (hself : ∀ x y, s.Built x → s.Built y → x.depth < a.depth → y.depth < b.depth →
      self x y = .ok (.bool ((m.plain s lib).equalDeep x y))) :
    chain m self (s.chainBodyOf lib c) n a b = .ok ((m.plain s lib).equalDeep a b) := by
  induction n generalizing a b with
  | zero => omega
  | succ n ih =>
    have hlevel := hm.equalDeep_plain hbuiltin hab hbb
    rcases ha with rfl | ⟨as, rfl⟩
    · rcases hb with rfl | ⟨bs, rfl⟩
      · rw [hlevel]
        rfl
      · rw [hlevel]
        rfl
    rcases hb with rfl | ⟨bs, rfl⟩
    · rw [hlevel]
      rfl
    obtain ⟨us, v, ws, rfl, hv, hvb, hus, hws, has⟩ := hm.built_node hlinked hab
    obtain ⟨us', v', ws', rfl, hv', hvb', hus', hws', hbs⟩ := hm.built_node hlinked hbb
    have hlt := c.depth_lt_node name us v ws
    have hlt' := c.depth_lt_node name us' v' ws'
    have hlengths : us.length = us'.length := by
      have h := congrArg List.length (hus.trans hus'.symm)
      rwa [length_map, length_map] at h
    -- the fields around the links, which the loop compares first
    have hpairs : pairs m self ((us ++ ws).map (·.2)) ((us' ++ ws').map (·.2)) =
        .ok (alike (m.plain s lib).equalDeep ((us ++ ws).map (·.2)) ((us' ++ ws').map (·.2))) := by
      refine (hm.compares hbuiltin).pairs_eq fun x hx y hy => ?_
      obtain ⟨f, hf, rfl⟩ := mem_map.1 hx
      obtain ⟨g, hg, rfl⟩ := mem_map.1 hy
      have hf' : f ∈ c.node us v ws := by
        simp only [mem_append, mem_cons] at hf ⊢
        tauto
      have hg' : g ∈ c.node us' v' ws' := by
        simp only [mem_append, mem_cons] at hg ⊢
        tauto
      exact hself _ _ (has f hf') (hbs g hg') (Value.depth_lt_object _ hf')
        (Value.depth_lt_object _ hg')
    have hrest := ih hv hv' hvb hvb' (by omega)
      fun x y hx hy hxv hyv => hself x y hx hy (hxv.trans hlt) (hyv.trans hlt')
    have hlink : s.Built (wrapped c.wrappers v) :=
      has (c.link, wrapped c.wrappers v) (by simp)
    have hlink' : s.Built (wrapped c.wrappers v') :=
      hbs (c.link, wrapped c.wrappers v') (by simp)
    have hwrapped := hm.equalDeep_wrapped hbuiltin hv hlink hlink'
    have hvalues : (us.map (·.2)).length = (us'.map (·.2)).length := by
      rw [length_map, length_map, hlengths]
    rw [hlevel, chain, if_neg (by simp [Value.isNull])]
    simp only [hm.attrs_node hlinked v hus hws, hm.attrs_node hlinked v' hus' hws',
      hm.next_node hlinked hus hws, hm.next_node hlinked hus' hws', level, decide_true, Bool.true_and,
      bind, Except.bind, hpairs]
    simp only [map_append, map_cons, alike_append hvalues, alike, hwrapped]
    cases alike (m.plain s lib).equalDeep (us.map (·.2)) (us'.map (·.2)) with
    | false => rfl
    | true =>
      cases alike (m.plain s lib).equalDeep (ws.map (·.2)) (ws'.map (·.2)) with
      | false => simp [pure, Except.pure]
      | true => simpa using hrest

end

lemma equalAt_eq_plain {n' : Nat} (ha : s.Built a) (hb : s.Built b) (hn : min a.depth b.depth < n)
    (hn' : min a.depth b.depth < n') : m.equalAt n a b = (m.plain s lib).equalAt n' a b := by
  induction n using Nat.strong_induction_on generalizing a b n' with
  | _ n ih =>
    cases n with
    | zero => omega
    | succ n =>
      have hself : ∀ x y, s.Built x → s.Built y → x.depth < a.depth → y.depth < b.depth →
          m.equalAt n x y = .ok (.bool ((m.plain s lib).equalDeep x y)) := by
        intro x y hx hy hxa hyb
        rw [hm.equalDeep_plain hbuiltin hx hy, ← hm.equalAt_plain hbuiltin hx hy (Nat.lt_succ_self _)]
        exact ih n (Nat.lt_succ_self n) hx hy (by omega) (Nat.lt_succ_self _)
      rw [hm.equalAt_plain hbuiltin ha hb hn']
      by_cases hnode : ∃ name xs ys c link, a = .object (.type name) xs ∧
          b = .object (.type name) ys ∧ s.Linked name c link
      · obtain ⟨name, xs, ys, c, link, rfl, rfl, hlinked⟩ := hnode
        have hchain := hm.chain_equal hbuiltin hlinked (.inr ⟨xs, rfl⟩) (.inr ⟨ys, rfl⟩) ha hb hn hself
        rw [hm.equalDeep_plain hbuiltin ha hb] at hchain
        simp only [Module.equalAt, hm.compares_built ha, decide_true, Bool.and_self, ite_true,
          (hm.plain_linked hlinked).1, hchain, Except.map]
      · refine (hm.compares hbuiltin).equalAt_succ ha hb (fun key xs ys hx hy c hbody => ?_) hself
        subst hx hy
        obtain ⟨name, c, link, rfl, hlinked⟩ := hm.linked_of_chain ha hbody
        exact hnode ⟨name, xs, ys, c, link, rfl, rfl, hlinked⟩

end Faithful

/-! ## Loops and plain forms -/

lemma Generates.builtin_eq {spec : Ast.Specification} {c : Config} {s : Schema} {m : Module}
    (hgen : Generates spec c s m) (hnames : s.Unambiguous) {name : String}
    (h : m.names.lookup name = none) : m.builtin name = .ok none := by
  have hs := hgen.sound
  obtain ⟨lib, -, hrest⟩ := bind_ok hgen.load
  obtain ⟨g, hload, hm⟩ := bind_ok hrest
  cases hm
  exact (Globals.load_ok hs hnames hload).undisturbed.builtin_of_lookup h

/-- The loops over lists of nodes agree with the plain forms, in which the methods of a struct go
through its fields in order. -/
theorem loops_agree_plain {spec : Ast.Specification} {c : Config} {s : Schema} {m : Module}
    (hgen : Generates spec c s m) (hnames : s.Unambiguous)
    (hfree : m.names.lookup "NotImplemented" = none) :
    ∃ support, Imports.support? c.runtimeModule = some support ∧
      (∀ t ∈ s.types, ∀ d, t.definition = .struct d →
        (m.plain s support).body? (.type t.name) = some (.record (s.slotsOf support d.plan))) ∧
      (∀ v, s.Built v → ∀ out, m.pack (v.depth + 2) v out =
        (m.plain s support).packAs m.conduct (v.depth + 2) v out) ∧
      (∀ t ∈ s.types, ∀ strict (i : Input), 0 ≤ i.offset →
        m.unpack strict (m.levels i.rest.length) (.type t.name) i =
          (m.plain s support).unpack strict (m.levels i.rest.length) (.type t.name) i) ∧
      ∀ t ∈ s.types, ∀ v, s.HasType (fun _ => True) (fun _ => True) t.name v →
        m.wireSize v = (m.plain s support).wireSize v ∧
        ∀ t' ∈ s.types, ∀ w, s.HasType (fun _ => True) (fun _ => True) t'.name w →
          m.equal v w = (m.plain s support).equal v w := by
  obtain ⟨support, hsupport, hm⟩ := hgen.faithful hnames
  obtain ⟨rank, hrank⟩ := hgen.ranked
  have hbuiltin := hgen.builtin_eq hnames hfree
  refine ⟨support, hsupport, fun t ht d hd => ?_, fun v hv out => ?_, fun t ht strict i hi => ?_,
    fun t ht v hv => ⟨?_, fun t' _ w hw => ?_⟩⟩
  · have hfind := hgen.sound.find?_name ht
    obtain ⟨b, hb⟩ := hm.bodied t.name t hfind (by simp [hd])
    rw [m.body?_plain, hm.body t.name, hfind, Option.bind_some, hb, Option.map_some]
    obtain ⟨_, _, _, _, _⟩ := t
    cases hd
    simp only [Schema.plainBody, hfind]
  · exact congrFun (hm.pack_plain hv (by omega) (by omega)) out
  · have hbounded := hrank.bounded t.name
    have hranks := hm.ranks
    have hlevels : m.ranks * (i.rest.length / 4) + (ClassKey.type t.name).rankBy rank <
        m.levels i.rest.length := by
      have hrankBy : (ClassKey.type t.name).rankBy rank = rank t.name := rfl
      rw [hrankBy, Module.levels, Nat.mul_add]
      omega
    exact hm.unpack_plain hgen.sound hrank hgen.tame strict (.type t.name) hi hlevels hlevels
  · obtain ⟨e, -, hform, -⟩ | ⟨-, hform, -⟩ := Schema.type_cases (hgen.sound.find?_name ht)
    all_goals
      rw [Schema.HasType, hform] at hv
      cases hv
    · rfl
    · rename_i hv
      exact hm.measure_plain hgen.sized hv (by omega) (by omega)
  · exact hm.equalAt_eq_plain hbuiltin (Schema.built_of_typed hv) (Schema.built_of_typed hw) (by omega)
      (by omega)

theorem loops_agree_plain_two :
    Entries.loaded.encodeRun (Entries.two .fixed) =
      (Entries.loaded.plain Entries.schema .whole).packAs Entries.loaded.conduct
        ((Entries.two .fixed).depth + 2) (Entries.two .fixed) #[] ∧
    Entries.loaded.decodeRun false (.type "entry") Entries.twoBytes =
      (Entries.loaded.plain Entries.schema .whole).decodeRun false (.type "entry") Entries.twoBytes ∧
    Entries.loaded.wireSize (Entries.two .fixed) =
      (Entries.loaded.plain Entries.schema .whole).wireSize (Entries.two .fixed) ∧
    Entries.loaded.equal (Entries.two .fixed) (Entries.two .view) =
      (Entries.loaded.plain Entries.schema .whole).equal (Entries.two .fixed) (Entries.two .view) := by
  obtain ⟨lib, hsupport, -, hpack, hunpack, hvalues⟩ :=
    loops_agree_plain Entries.generates Entries.schema_unambiguous (by decide +kernel)
  obtain rfl : lib = .whole := by
    have hwhole : Imports.support? ({} : Config).runtimeModule = some .whole := by decide
    exact Option.some.inj (hsupport.symm.trans hwhole)
  have htyped : ∀ storage : Storage, storage.isPlain = true → Entries.schema.HasType (fun _ => True) (fun _ => True)
      Entries.entryType.name (Entries.two storage) := fun storage hstorage =>
    Entries.two_hasType hstorage trivial trivial
  have hfirst := htyped .fixed (by decide)
  obtain ⟨hsize, hequal⟩ := hvalues Entries.entryType Entries.entryType_mem _ hfirst
  exact ⟨hpack _ (Schema.built_of_typed hfirst) #[],
    hunpack Entries.entryType Entries.entryType_mem false (Input.ofBytes Entries.twoBytes) le_rfl,
    hsize, hequal Entries.entryType Entries.entryType_mem _ (htyped .view (by decide))⟩

end Xdr
