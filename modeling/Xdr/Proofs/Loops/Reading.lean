import Xdr.Proofs.Codec.Decoding
import Xdr.Proofs.Codec.Fuel
import Xdr.Proofs.Loops.Writing

/-!
# Decoding lists

The loop over a list reads the fields before the links of all nodes, and then those behind them,
last node first.
-/

namespace Xdr

open Unpack List

variable {i j : Input} {rank : String → Nat} {name : String} {wrappers : List String}
  {key : ClassKey} {p : UnionPlan} {final shape : Shape} {l n : Nat} {k : Int}

lemma run_bind_congr {α β : Type} {x y : Read α} {f g : α → Read β} (h : x i = y i)
    (hf : ∀ a j, x i = (.ok a, j) → f a j = g a j) : (x >>= f) i = (y >>= g) i := by
  cases hx : x i with
  | mk r j =>
    have hy := h.symm.trans hx
    cases r with
    | ok a => rw [run_bind_of_ok hx, run_bind_of_ok hy, hf a j hx]
    | error e => rw [run_bind_of_error hx, run_bind_of_error hy]

lemma values_append (d : Decoder) (before behind : List Slot) (x : Slot) :
    values d (before ++ x :: behind) =
      values d before >>= fun us => x.form.read d >>= fun v => values d behind >>= fun ws =>
        pure (us ++ v :: ws) := by
  induction before with
  | nil => exact (pure_bind _ _).symm
  | cons y rest ih =>
    rw [cons_append, values, values, ih]
    simp only [bind_assoc, pure_bind, cons_append]

lemma slotsOf_forward (s : Schema) (lib : Imports.Support) (decls : List (String × Decl)) :
    ∀ x ∈ s.slotsOf lib decls, x.form.Forward := by
  intro x hx
  obtain ⟨f, -, rfl⟩ := mem_map.1 hx
  exact s.form_forward s.meant _

lemma plain_forward {m : Module} (h : ∀ key b, m.body? key = some b → b.Forward) (s : Schema)
    (lib : Imports.Support) :
    ∀ key b, (m.plain s lib).body? key = some b → b.Forward := by
  intro key b hb
  rw [m.body?_plain] at hb
  obtain ⟨b, hbody, rfl⟩ := Option.map_eq_some_iff.1 hb
  have hforward := h key b hbody
  unfold Schema.plainBody
  split
  · split
    · exact forall_mem_map.2 (slotsOf_forward s lib _)
    · exact hforward
  · exact hforward

namespace ClassKey

def rankBy (rank : String → Nat) (key : ClassKey) : Nat :=
  match key.reader with
  | .type name => rank name
  | _ => 0

lemma rankBy_le {bound : Nat} (h : ∀ name, rank name ≤ bound) (key : ClassKey) :
    key.rankBy rank ≤ bound := by
  unfold rankBy
  split
  · exact h _
  · exact Nat.zero_le _

lemma reader_type (name : String) : (ClassKey.type name).reader = .type name := rfl

lemma reader_reader (key : ClassKey) : key.reader.reader = key.reader := by
  cases key <;> rfl

end ClassKey

lemma Schema.Wraps.length_le {s : Schema} (hrank : s.Ranked rank)
    (hwraps : s.Wraps shape wrappers final) {r : Nat}
    (hshape : ∀ other, (s.formOf shape).held = some (.type other) → rank other < r) :
    wrappers.length ≤ r := by
  induction hwraps generalizing r with
  | refl => exact Nat.zero_le _
  | @cons other t d length inner final ht hd h ih =>
    obtain ⟨hform, -, hfields⟩ := Schema.formNamed_of_typedef ht hd
    have hother : rank other < r := by
      refine hshape other ?_
      show (s.formNamed other).held = _
      rw [hform]
      rfl
    have hinner := ih (r := rank other) fun x hx =>
      hrank.fields other _ hfields _ (.head _) x hx
    rw [length_cons]
    omega

lemma Form.Regular.type_of_held {form : Form} (h : form.Regular) (hkey : form.held = some key) :
    ∃ name, key = .type name := by
  have hsimple : ∀ item : Form, item.Simple → item.held = some key → ∃ name, key = .type name := by
    intro item hitem hkey
    match item, hitem with
    | .cls (.cls (.type name)), _ => exact ⟨name, (Option.some.inj hkey).symm⟩
  match form, h with
  | .cls m, h => exact hsimple (.cls m) h hkey
  | .fixedArray n item, h => exact hsimple item h.2 hkey

lemma Schema.exists_arm {s : Schema} {p : UnionPlan} {b : Branch}
    (h : b ∈ (s.unionBodyOf name p).branches ++ (s.unionBodyOf name p).fallback.toList) :
    ∃ a ∈ p.arms, b = s.branchOf name p a := by
  rcases mem_append.1 h with h | h
  · obtain ⟨a, ha, rfl⟩ := mem_map.1 h
    exact ⟨a, mem_of_mem_filter ha, rfl⟩
  · obtain ⟨a, ha, rfl⟩ := Option.map_eq_some_iff.1 (Option.mem_toList.1 h)
    exact ⟨a, mem_of_find?_eq_some ha, rfl⟩

lemma Faithful.lower_of_holds {s : Schema} {lib : Imports.Support} {m : Module}
    (hm : Faithful s lib m) (hs : s.Sound) (hrank : s.Ranked rank) {b : Body}
    (hb : m.body? (.type name) = some b) (h : b.Holds key) :
    ∃ other, key = .type other ∧ rank other < rank name := by
  have hlower : ∀ shape : Shape, (∀ other, (s.formOf shape).held = some (.type other) →
      rank other < rank name) → (s.formOf shape).held = some key →
      ∃ other, key = .type other ∧ rank other < rank name := by
    intro shape hlower hkey
    obtain ⟨other, rfl⟩ := (hs.formOf_regular shape).type_of_held hkey
    exact ⟨other, rfl, hlower other hkey⟩
  have hslots : ∀ decls : List (String × Decl),
      (∀ f ∈ s.fieldsOf decls, ∀ other, f.2.held = some (.type other) → rank other < rank name) →
      ∀ x ∈ s.slotsOf lib decls, x.form.held = some key →
        ∃ other, key = .type other ∧ rank other < rank name := by
    intro decls hfields x hx
    obtain ⟨f, hf, rfl⟩ := mem_map.1 hx
    exact hlower f.2.toShape (hfields _ (mem_map_of_mem hf))
  suffices hforms : ∀ form ∈ b.forms, form.held = some key →
      ∃ other, key = .type other ∧ rank other < rank name by
    obtain ⟨form, hform, hkey⟩ := h
    exact hforms form hform hkey
  rcases hm.body_trichotomy name with ⟨fields, hfields⟩ | ⟨p, hp⟩ | hnone
  · have hheld := hrank.fields name fields hfields
    rcases hm.body_cases hfields with ⟨decls, rfl, hbody⟩ | ⟨c, link, hbody, hlinked⟩
    · cases hb.symm.trans hbody
      exact forall_mem_map.2 (hslots decls hheld)
    · cases hb.symm.trans hbody
      cases hfields.symm.trans hlinked.fields?_eq
      simp only [forall_mem_append, forall_mem_cons] at hheld
      exact Body.forall_chain.2 ⟨hslots c.before hheld.1, hslots c.behind hheld.2.2⟩
  · cases hb.symm.trans (hm.body_union hp)
    refine Body.forall_union.2 ⟨fun hkey => ?_, fun branch hbranch form hpayload => ?_⟩
    · cases (hs.plans name p hp).2.held.symm.trans hkey
    · obtain ⟨a, ha, rfl⟩ := Schema.exists_arm hbranch
      obtain ⟨field, hfield, rfl⟩ := Option.map_eq_some_iff.1 hpayload
      exact hlower a.decl.toShape
        (hrank.payload name p hp a ha (field, s.formOf a.decl.toShape) (by simp [Schema.payload, hfield]))
  · cases hb.symm.trans hnone

namespace Schema

variable {s : Schema}

lemma Numeric.number_of_read (h : s.Numeric shape) {d : Decoder} (hi : 0 ≤ i.offset) {v : Value}
    (hrun : (s.formOf shape).read d i = (.ok v, j)) : ∃ k, v.wholeNumber? = some k := by
  obtain ⟨data, rest, offset⟩ := i
  obtain ⟨k, rfl⟩ := Int.eq_ofNat_of_zero_le hi
  obtain ⟨cells, bs, tail, -, -, -, hlaid⟩ := h.takes d false data rest k v j hrun
  exact h.exists_number_of_laid hlaid

end Schema

section

variable (m : Module) (s : Schema) (lib : Imports.Support)

lemma equal_plain {a : Value} (h : a.wholeNumber? = some k) (b : Value) :
    (m.plain s lib).equal a b = m.equal a b := by
  have hdifferent := m.different_plain s lib a b
  have hrefused : Equality.isRefused (m.plain s lib) a b = Equality.isRefused m a b := rfl
  unfold Module.equal
  cases a with
  | int n | bool t | member e v n => cases b <;> simp only [Module.equalAt, hdifferent, hrefused]
  | _ => cases h

lemma select_plain {disc : Value} (h : disc.wholeNumber? = some k) (branches : List Branch) :
    select (m.plain s lib) disc branches = select m disc branches := by
  induction branches with
  | nil => rfl
  | cons b rest ih =>
    have hlabel :
        (fun label : Except Fault Value => label >>= fun v =>
          (m.plain s lib).equal disc v >>= (m.plain s lib).truth) =
        (fun label => label >>= fun v => m.equal disc v >>= m.truth) := by
      funext label
      simp only [equal_plain m s lib h, Module.plain_toGlobals]
    rw [select, select, ih]
    simp only [hlabel]

lemma build_plain (d : Decoder) (name : String) (p : UnionPlan) (a : ArmPlan) (disc : Value) :
    build (m.plain s lib) d (s.branchOf name p a) disc = build m d (s.branchOf name p a) disc := by
  have hinvoke : ∀ args, (m.plain s lib).invoke (.cls (.arm name a.attr)) args [] =
      m.invoke (.cls (.arm name a.attr)) args [] := by
    intro args
    simp only [Module.invoke, Globals.enumOf?, Module.plain_toGlobals]
  unfold build Schema.branchOf
  cases a.payload? with
  | none => simp only [Option.map_none, settle_ok_bind, hinvoke]
  | some field => simp only [Option.map_some, settle_ok_bind, hinvoke]

end

namespace Faithful

variable {s : Schema} {lib : Imports.Support} {m : Module} (hm : Faithful s lib m)

include hm

lemma body_union_plain (hp : s.plan? name = some p) :
    (m.plain s lib).body? (.type name) = some (.union (s.unionBodyOf name p)) := by
  rw [m.body?_plain, hm.body_union hp]
  unfold Schema.plan? at hp
  split at hp
  · rename_i hfind
    simp only [Option.map_some, Schema.plainBody, hfind]
  · cases hp

lemma union_plain (hs : s.Sound) (hp : s.plan? name = some p) (d : Decoder) (hi : 0 ≤ i.offset) :
    Unpack.union m d (s.unionBodyOf name p) i =
      Unpack.union (m.plain s lib) d (s.unionBodyOf name p) i := by
  obtain ⟨hsound, hnumeric⟩ := hs.plans name p hp
  refine run_bind_congr rfl fun disc j hdisc => ?_
  obtain ⟨k, hk⟩ := hnumeric.number_of_read hi hdisc
  have hshown : shown (m.plain s lib) disc = shown m disc := by simp [shown, hk]
  rw [select_plain m s lib hk]
  obtain ⟨a, -, hselect | ⟨hselect, hfall⟩⟩ | ⟨-, hselect, hfall⟩ :=
    hm.branch_cases (s := s) name hsound hk
  · rw [hselect, settle_ok_bind, settle_ok_bind]
    exact congrFun (build_plain m s lib d name p a disc).symm j
  · rw [hselect, settle_ok_bind, settle_ok_bind, hfall]
    exact congrFun (build_plain m s lib d name p a disc).symm j
  · rw [hselect, settle_ok_bind, settle_ok_bind, hfall, hshown]

lemma unpack_typedef {t : TypeInfo} {d : TypedefType} (ht : s.find? name = some t)
    (hd : t.definition = .typedef d) (strict : Bool) (n : Nat) :
    let decoder : Decoder := ⟨strict, (m.plain s lib).unpack strict n,
      fun key args => m.construct key args []⟩
    (m.plain s lib).unpack strict (n + 1) (.type name) =
      (s.formOf d.decl.toShape).read decoder >>= fun v =>
        pure (.object (.type name) [("value", v)]) := by
  intro decoder
  obtain ⟨-, -, hfields⟩ := Schema.formNamed_of_typedef ht hd
  have hkeeps := (hm.record name _ hfields).1
  rw [Module.unpack, own_eq]
  simp only [ClassKey.reader, Module.plain_toGlobals, hm.readable, Bool.not_true, Bool.false_eq_true,
    ite_false, hm.plain_typedef ht hd, values, bind_assoc, pure_bind]
  refine congrArg ((s.formOf d.decl.toShape).read decoder >>= ·) (funext fun v => ?_)
  rw [hkeeps.construct [v] rfl]
  rfl

lemma read_link (hwraps : s.Wraps shape wrappers final)
    (hfinal : s.formOf final = .optional (.cls (.cls (.type name)))) (strict : Bool)
    (hi : 0 ≤ i.offset) {next : Read Value} (hnext : ∀ k, l ≤ k → ∀ j, i.Past 4 j →
      (m.plain s lib).unpack strict k (.type name) j = next j) (hn : l + wrappers.length ≤ n) :
    (s.formOf shape).read ⟨strict, (m.plain s lib).unpack strict n,
        fun key args => m.construct key args []⟩ i =
      (Read.flag >>= fun more =>
        if more then next >>= fun v => pure (wrapped wrappers v)
        else pure (wrapped wrappers .null)) i := by
  induction hwraps generalizing n with
  | refl shape =>
    rw [hfinal]
    refine run_bind_congr rfl fun more j hflag => ?_
    cases more with
    | false => rfl
    | true =>
      have hj : i.Past 4 j := (past_of_flag hi (.refl i) hflag).mono (by omega)
      have hsame := hnext n (by simpa using hn) j hj
      simp only [ite_true]
      refine hsame.trans ?_
      rw [show wrapped [] = id from rfl]
      exact (congrFun (bind_pure next) j).symm
  | @cons other t d length inner final ht hd h ih =>
    obtain ⟨n, rfl⟩ : ∃ k, n = k + 1 := ⟨n - 1, by simp at hn; omega⟩
    obtain ⟨hform, -, -⟩ := Schema.formNamed_of_typedef ht hd
    rw [length_cons] at hn
    show (s.formNamed other).read _ i = _
    rw [hform]
    show (m.plain s lib).unpack strict (n + 1) (.type other) i = _
    rw [hm.unpack_typedef ht hd strict n]
    refine (run_bind_congr (ih hfinal (by omega)) fun _ _ _ => rfl).trans ?_
    rw [bind_assoc]
    refine run_bind_congr rfl fun more j _ => ?_
    cases more with
    | false => rfl
    | true =>
      simp only [ite_true, bind_assoc, pure_bind]
      rfl

section

variable {name : String} {c : Chain} {link : Shape} (hlinked : s.Linked name c link) (strict : Bool)

include hlinked

lemma unpack_node (n : Nat) :
    let d : Decoder := ⟨strict, (m.plain s lib).unpack strict n,
      fun key args => m.construct key args []⟩
    (m.plain s lib).unpack strict (n + 1) (.type name) =
      values d (s.slotsOf lib c.before) >>= fun us => (s.formOf link).read d >>= fun v =>
        values d (s.slotsOf lib c.behind) >>= fun ws =>
          settle (m.construct (.type name) (us ++ v :: ws) []) := by
  intro d
  rw [Module.unpack, own_eq]
  simp only [ClassKey.reader, Module.plain_toGlobals, hm.readable, Bool.not_true, Bool.false_eq_true,
    ite_false, (hm.plain_linked hlinked).2, values_append, bind_assoc, pure_bind]
  rfl

lemma node_plain (hd : ∀ key, Orderly ((m.plain s lib).unpack strict n key))
    (hi : 0 ≤ i.offset)
    (hnext : ∀ k, l ≤ k → ∀ j, i.Past 4 j → (m.plain s lib).unpack strict k (.type name) j =
      (m.plain s lib).unpack strict (n + 1) (.type name) j) (hn : l + c.wrappers.length ≤ n)
    {count : Nat} (hj : i.Past 0 j) (hcount : j.rest.length < 4 * count) :
    let d : Decoder := ⟨strict, (m.plain s lib).unpack strict n,
      fun key args => m.construct key args []⟩
    Unpack.node d (.type name) (s.chainBodyOf lib c) count j =
      (m.plain s lib).unpack strict (n + 1) (.type name) j := by
  intro d
  obtain ⟨bound, hwraps⟩ := hlinked.wraps
  have hfinal := hlinked.formOf_next bound
  have hnode := hm.unpack_node hlinked strict n
  have hwrap : ∀ v, wrap d (s.chainBodyOf lib c) v = .ok (wrapped c.wrappers v) := fun v =>
    hm.wrap_node hlinked rfl v
  induction count generalizing j with
  | zero => omega
  | succ count ih =>
    rw [Unpack.node, hnode]
    refine run_bind_congr rfl fun head k hhead => ?_
    have hforward := slotsOf_forward s lib c.before
    have hk := (Orderly.values hd hforward).past hi hj hhead
    have hlength := (Orderly.values hd hforward).past (hj.front hi) (.refl j) hhead
    have hlink := hm.read_link hwraps hfinal strict (hk.front hi)
      (fun x hx o ho => hnext x hx o ((hk.trans ho).mono (by omega))) hn
    refine Eq.trans ?_ (run_bind_congr hlink.symm fun _ _ _ => rfl)
    rw [bind_assoc]
    refine run_bind_congr rfl fun more o hflag => ?_
    cases more with
    | false =>
      simp only [Bool.false_eq_true, ite_false, pure_bind, hwrap, settle_ok_bind]
      rfl
    | true =>
      have ho : i.Past 4 o := (past_of_flag hi hk hflag).mono (by omega)
      have hshort := (past_of_flag (hj.front hi) hlength hflag).length
      simp only [ite_true, bind_assoc, pure_bind]
      refine run_bind_congr (ih (ho.mono (by omega)) (by omega)) fun v p _ => ?_
      simp only [hwrap, settle_ok_bind]
      rfl

end

lemma own_unpack_plain (hs : s.Sound) (hrank : s.Ranked rank) (strict : Bool)
    (hd : ∀ key, Orderly ((m.plain s lib).unpack strict n key)) (hi : 0 ≤ i.offset)
    (hn : i.rest.length < 4 * (n + 1)) (hrankn : rank name ≤ n)
    (hnext : ∀ k, n - rank name ≤ k → ∀ j, i.Past 4 j →
      (m.plain s lib).unpack strict k (.type name) j =
        (m.plain s lib).unpack strict (n + 1) (.type name) j) :
    own m ⟨strict, (m.plain s lib).unpack strict n, fun key args => m.construct key args []⟩
        (n + 1) (.type name) i =
      (m.plain s lib).unpack strict (n + 1) (.type name) i := by
  have hread := hm.readable name
  have hplain : ((m.plain s lib).head? (.type name)).all (·.isReadable) = true := hread
  rcases hm.body_trichotomy name with ⟨fields, hfields⟩ | ⟨p, hp⟩ | hnone
  · obtain ⟨decls, -, hplain⟩ := hm.plain_record hfields
    rcases hm.plain_cases hfields with hsame | ⟨c, link, hlinked⟩
    · rw [Module.unpack, own_eq, own_eq, ClassKey.reader_type, hsame, hplain]
      rfl
    · obtain ⟨bound, hwraps⟩ := hlinked.wraps
      have hwrappers : c.wrappers.length ≤ rank name :=
        hwraps.length_le hrank (hrank.fields name _ hlinked.fields?_eq (c.link, s.formOf link) (by simp))
      rw [own_eq, ClassKey.reader_type, (hm.plain_linked hlinked).1]
      simp only [hread, Bool.not_true, Bool.false_eq_true, ite_false, hm.chain_eq_node]
      exact hm.node_plain hlinked strict hd hi (l := n - c.wrappers.length)
        (fun k hk => hnext k (by omega)) (by omega) (.refl i) hn
  · have hunion := hm.union_plain hs hp ⟨strict, (m.plain s lib).unpack strict n,
      fun key args => m.construct key args []⟩ hi
    rw [Module.unpack, own_eq, own_eq, ClassKey.reader_type, hm.body_union_plain hp, hm.body_union hp]
    simp only [hread, hplain, Bool.not_true, Bool.false_eq_true, ite_false]
    exact hunion
  · rw [Module.unpack, own_eq, own_eq, ClassKey.reader_type, m.body?_plain, hnone]
    rfl

lemma unpack_plain (hs : s.Sound) (hrank : s.Ranked rank) {names : List String}
    (htame : m.Tame names) (strict : Bool) {n' : Nat} (key : ClassKey) (hi : 0 ≤ i.offset)
    (hn : m.ranks * (i.rest.length / 4) + key.rankBy rank < n)
    (hn' : m.ranks * (i.rest.length / 4) + key.rankBy rank < n') :
    m.unpack strict n key i = (m.plain s lib).unpack strict n' key i := by
  induction n generalizing n' key i with
  | zero => omega
  | succ n ih =>
    obtain ⟨n', rfl⟩ : ∃ k, n' = k + 1 := ⟨n' - 1, by omega⟩
    rw [← m.unpack_reader, ← (m.plain s lib).unpack_reader]
    cases hbody : m.body? key.reader with
    | none =>
      rw [Module.unpack, Module.unpack, own_eq, own_eq, key.reader_reader, m.body?_plain, hbody]
      rfl
    | some b =>
      obtain ⟨name, -, hreader⟩ := htame.named key b hbody
      have hrankBy : key.rankBy rank = rank name := by rw [ClassKey.rankBy, hreader]
      rw [hrankBy] at hn hn'
      rw [hreader] at hbody ⊢
      have hranks : ∀ other : ClassKey, other.rankBy rank < m.ranks := fun other => by
        rw [hm.ranks]
        exact Nat.lt_succ_of_le (other.rankBy_le hrank.bounded)
      have hpos : 0 < m.ranks := (Nat.zero_le _).trans_lt (hranks key)
      have hwords : i.rest.length / 4 ≤ m.ranks * (i.rest.length / 4) :=
        Nat.le_mul_of_pos_left _ hpos
      have hlater : ∀ other j, i.Past 4 j → ∀ k,
          m.ranks * (j.rest.length / 4) + other.rankBy rank < k →
          m.unpack strict n other j = (m.plain s lib).unpack strict k other j := by
        intro other j hj k hk
        have hlength := hj.length
        exact ih other (hj.front hi) (levels_below hn (hranks other) (by omega) (.inr hlength)) hk
      have hheld : ∀ b, m.body? (.type name) = some b → ∀ other, b.Holds other →
          m.unpack strict n other i = (m.plain s lib).unpack strict n' other i := by
        intro b hb other hother
        obtain ⟨x, rfl, hlower⟩ := hm.lower_of_holds hs hrank hb hother
        exact ih (.type x) hi (levels_below hn (hranks (.type x)) le_rfl (.inl hlower))
          (levels_below hn' (hranks (.type x)) le_rfl (.inl hlower))
      -- what the class holds and what is behind it may be read in plain form
      have hagrees : Agrees (fun _ => False) (m.unpack strict (n + 1) (.type name))
          (own m ⟨strict, (m.plain s lib).unpack strict n', fun key args => m.construct key args []⟩
            (n' + 1) (.type name)) i := by
        refine Agrees.own (htame.orderly strict n) hi (fun other j hj _ => ?_) m
          (htame.forward (ClassKey.reader (.type name))) (fun b hb other hother _ => ?_)
          ⟨.inr (by omega), .inr (by omega)⟩
        · have hlength := hj.length
          exact (hlater other j hj n' (levels_below hn' (hranks other) (by omega) (.inr hlength))).symm
        · exact (hheld b hb other hother).symm
      refine (hagrees fun _ _ _ => id).symm.trans ?_
      refine hm.own_unpack_plain hs hrank strict
        (Orderly.unpack (plain_forward htame.forward s lib) strict n') hi (by omega) (by omega)
        fun k hk j hj => ?_
      have hlength := hj.length
      have hfewer : j.rest.length / 4 + 1 ≤ i.rest.length / 4 := by omega
      have hmul := Nat.mul_le_mul_left m.ranks hfewer
      have hname := hranks (.type name)
      rw [Nat.mul_add, Nat.mul_one] at hmul
      have hkey : (ClassKey.type name).rankBy rank = rank name := rfl
      rw [hkey] at hname
      rw [← hlater (.type name) j hj k (by rw [hkey]; omega),
        ← hlater (.type name) j hj (n' + 1) (by rw [hkey]; omega)]

end Faithful

end Xdr
