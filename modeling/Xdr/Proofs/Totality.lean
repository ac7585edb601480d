import Xdr.Proofs.Loops.Reading
import Xdr.Proofs.Prefixes

/-!
# Decoding comes to an end

Under unambiguous names every type of a specification decodes any bytes: it finds a value, or it
tells what is wrong with the bytes.
-/

namespace Xdr

open Unpack List

variable {n : Nat} {j : Input} {name : String} {rank : String → Nat} {names : List String}
  {form : Form} {slots : List Slot} {shape : Shape} {strict : Bool} {data rest : List UInt8}
  {a : ArmPlan} {v : Value}

section

variable {α β : Type} {i : Input}

lemma Safe.settle_bind {x : Except Fault α} {a : α} (hx : x = .ok a) {f : α → Read β}
    (hf : Safe (f a) i) : Safe (settle x >>= f) i := by
  rw [hx, settle_ok_bind]
  exact hf

lemma Safe.settle {x : Except Fault α} {a : α} (hx : x = .ok a) (i : Input) : Safe (settle x) i := by
  rw [hx]
  exact .pure a i

end

lemma Steady.enum {e : EnumClass} (he : e.plain = []) : Steady (Read.enum e) := by
  refine .offset fun start => (Steady.signedWord (by decide)).bind fun n => ?_
  have hmissing : e.missing = .badValue := by simp [EnumClass.missing, EnumClass.hasPlain, he]
  rw [member_int, hmissing]
  cases e.members.find? fun m => decide (m.2 = n) with
  | some found => exact .pure _
  | none => exact .fail _

def Total {α : Type} (r : Read α) : Prop := ∀ i : Input, 0 ≤ i.offset → Safe r i

lemma Total.enum {e : EnumClass} (he : e.plain = []) : Total (Read.enum e) :=
  fun _ hi => (Steady.enum he).safe hi

def Form.Supported (known : String → Prop) : Form → Prop
  | scalar b => b ∉ [.quadruple, .opaqueBytes, .string, .void]
  | enum (.enum e) => e.plain = []
  | cls (.cls (.type name)) => known name
  | fixedOpaque n => 0 ≤ n
  | varOpaque _ => True
  | string _ => True
  | optional item => item.Supported known
  | fixedArray _ item => item.Supported known
  | array _ item => item.Supported known
  | _ => False

lemma Form.Supported.forward {known : String → Prop} (h : form.Supported known) :
    form.Forward := by
  induction form with
  | fixedOpaque n => exact h
  | optional item ih | fixedArray n item ih | array bound item ih => exact ih h
  | _ => trivial

lemma Form.Supported.of_held {known : String → Prop} (h : form.Supported known) {key : ClassKey}
    (hkey : form.held = some key) : ∃ name, key = .type name ∧ known name := by
  induction form with
  | cls m =>
    cases m with
    | cls other =>
      cases hkey
      cases key with
      | type name => exact ⟨name, rfl, h⟩
      | _ => exact h.elim
    | _ => cases hkey
  | fixedArray n item ih => exact ih h hkey
  | _ => cases hkey

section

variable {known : String → Prop} {d : Decoder} (hd : ∀ key, Orderly (d.unpack key)) {i : Input}
  (hi : 0 ≤ i.offset)
  (hlater : ∀ name, known name → ∀ j, i.Past 4 j → Safe (d.unpack (.type name)) j)

include hi in
lemma Safe.repeated {item : Read Value} (hitem : Orderly item) (h : ∀ j, i.Past n j → Safe item j)
    (count : Nat) (done : List Value) (hj : i.Past n j) :
    Safe (Read.repeated item count done) j := by
  induction count generalizing done j with
  | zero => exact .pure _ j
  | succ count ih => exact (h j hj).bind fun v k hrun => ih (v :: done) (hitem.past hi hj hrun)

include hd hi hlater

lemma Safe.read (hform : form.Supported known)
    (hheld : ∀ key, form.held = some key → ∀ j, i.Past n j → Safe (d.unpack key) j)
    (hj : i.Past n j) : Safe (form.read d) j := by
  induction form generalizing n j with
  | scalar b => exact (Steady.scalar hform).safe (hj.front hi)
  | enum m =>
    cases m with
    | enum e => exact Total.enum hform j (hj.front hi)
    | _ => exact hform.elim
  | cls m =>
    cases m with
    | cls key => exact hheld key rfl j hj
    | _ => exact hform.elim
  | length bound | flag => exact hform.elim
  | fixedOpaque n =>
    obtain ⟨k, rfl⟩ := Int.eq_ofNat_of_zero_le hform
    exact ((Steady.fixedOpaque d.strict k).safe (hj.front hi)).bind fun _ k _ => .pure _ k
  | varOpaque bound =>
    exact ((Steady.varOpaque d.strict bound).safe (hj.front hi)).bind fun _ k _ => .pure _ k
  | string bound => exact ((Steady.string d.strict bound).safe (hj.front hi)).bind fun _ k _ => .pure _ k
  | optional item ih =>
    refine (Steady.flag.safe (hj.front hi)).bind fun b k hrun => ?_
    cases b with
    | false => exact .pure _ k
    | true =>
      have hitem : item.Supported known := hform
      refine ih hitem (n := 4) (fun key hkey => ?_) ((past_of_flag hi hj hrun).mono (by omega))
      obtain ⟨name, rfl, hname⟩ := hitem.of_held hkey
      exact hlater name hname
  | fixedArray count item ih =>
    have hitem : item.Supported known := hform
    refine Safe.bind ?_ fun _ k _ => .pure _ k
    exact .repeated hi (.read hd hitem.forward) (fun k hk => ih hitem hheld hk) _ [] hj
  | array bound item ih =>
    have hitem : item.Supported known := hform
    refine ((Steady.length bound).safe (hj.front hi)).bind fun count k hrun => ?_
    refine Safe.bind ?_ fun _ l _ => .pure _ l
    refine .repeated hi (.read hd hitem.forward) (n := 4)
      (fun l hl => ih hitem (fun key hkey => ?_) hl) _ [] ((past_of_length hi hj hrun).mono (by omega))
    obtain ⟨name, rfl, hname⟩ := hitem.of_held hkey
    exact hlater name hname

lemma Safe.values (hslots : ∀ x ∈ slots, x.form.Supported known)
    (hheld : ∀ x ∈ slots, ∀ key, x.form.held = some key → ∀ j, i.Past n j → Safe (d.unpack key) j)
    (hj : i.Past n j) : Safe (values d slots) j := by
  induction slots generalizing j with
  | nil => exact .pure _ j
  | cons x rest ih =>
    obtain ⟨hx, hrest⟩ := forall_mem_cons.1 hslots
    obtain ⟨hheldx, hheldrest⟩ := forall_mem_cons.1 hheld
    refine (Safe.read hd hi hlater hx hheldx hj).bind fun v k hrun => ?_
    have hk := (Orderly.read hd hx.forward).past hi hj hrun
    exact (ih hrest hheldrest hk).bind fun _ l _ => .pure _ l

omit hd hi hlater in
lemma values_length {i : Input} {vs : List Value} (h : values d slots i = (.ok vs, j)) :
    vs.length = slots.length := by
  induction slots generalizing i vs j with
  | nil =>
    cases h
    rfl
  | cons x rest ih =>
    obtain ⟨v, k, -, h⟩ := run_bind_eq_ok.1 h
    obtain ⟨ws, l, hws, h⟩ := run_bind_eq_ok.1 h
    cases h
    rw [length_cons, length_cons, ih hws]

end

namespace Schema

variable {s : Schema}

def Known (s : Schema) (name : String) : Prop :=
  ∃ t, s.find? name = some t ∧ ∀ e, t.definition ≠ .enum e

lemma elementForm_supported {base : Base}
    (hnamed : ∀ name, base = .named name → ∃ t, s.find? name = some t)
    (hquadruple : base ≠ .builtin .quadruple) (hvoid : base ≠ .builtin .void)
    (hbytes : base.isBytes = false) : (s.elementForm s.meant base).Supported s.Known := by
  cases base with
  | builtin b =>
    show b ∉ _
    cases b <;> first | decide | exact absurd rfl hquadruple | exact absurd rfl hvoid | cases hbytes
  | named name =>
    obtain ⟨t, ht⟩ := hnamed name rfl
    show (s.formNamed name).Supported s.Known
    by_cases h : ∃ e, t.definition = .enum e
    · obtain ⟨e, he⟩ := h
      rw [formNamed_of_enum ht he]
      rfl
    · have hnot : ∀ e, t.definition ≠ .enum e := fun e he => h ⟨e, he⟩
      rw [formNamed_of_not_enum fun t' ht' => by
        cases ht.symm.trans ht'
        exact hnot]
      exact ⟨t, ht, hnot⟩

lemma formOf_supported (hnamed : ∀ name, shape.base = .named name → ∃ t, s.find? name = some t)
    (hquadruple : shape.base ≠ .builtin .quadruple) (hvoid : shape.base ≠ .builtin .void) :
    (s.formOf shape).Supported s.Known := by
  have hview := formOf_view s shape
  generalize s.formOf shape = form at hview ⊢
  cases hview with
  | fixedOpaque => exact Int.natCast_nonneg _
  | varOpaque | string => trivial
  | scalar h | optional h | fixed h | varying h =>
    exact elementForm_supported hnamed hquadruple hvoid h

lemma Closed.decl_supported (hc : s.Closed) {t : TypeInfo} (ht : t ∈ s.types) {d : Decl}
    (hd : d ∈ t.definition.members) (hvoid : d.base ≠ .builtin .void) :
    (s.formOf d.toShape).Supported s.Known :=
  formOf_supported (hc.named t ht d hd) (hc.quadruple t ht d hd) hvoid

lemma Closed.fields_supported (hc : s.Closed) {fields : List (String × Form)}
    (h : s.fields? name = some fields) : ∀ f ∈ fields, f.2.Supported s.Known := by
  unfold fields? at h
  split at h
  · rename_i d _ _ _ _ hfind
    cases h
    intro f hf
    obtain ⟨g, hg, rfl⟩ := mem_map.1 hf
    obtain ⟨decl, hdecl, rfl⟩ := mem_map.1 hg
    exact hc.decl_supported (mem_of_find? hfind).1 hdecl (hc.void _ (mem_of_find? hfind).1 decl hdecl)
  · rename_i d _ _ _ _ hfind
    cases h
    intro f hf
    obtain rfl := mem_singleton.1 hf
    have hdecl : d.decl ∈ Definition.members (.typedef d) := .head _
    exact hc.decl_supported (mem_of_find? hfind).1 hdecl
      (hc.void _ (mem_of_find? hfind).1 d.decl (.head _))
  · cases h

lemma Closed.payload_supported (hc : s.Closed) {p : UnionPlan} (h : s.plan? name = some p)
    (ha : a ∈ p.arms) : ∀ f ∈ s.payload a, f.2.Supported s.Known := by
  intro f hf
  obtain ⟨field, hfield, rfl⟩ := mem_map.1 hf
  unfold plan? at h
  split at h
  · rename_i u _ _ _ _ hfind
    refine hc.decl_supported (mem_of_find? hfind).1 (.tail _ (decl_mem_of_arm h ha)) ?_
    intro hvoid
    have hnone : a.payload? = none := by simp [ArmPlan.payload?, Shape.isVoid, hvoid]
    rw [hnone] at hfield
    cases hfield
  · cases h

lemma Numeric.supported (h : s.Numeric shape) : (s.formOf shape).Supported s.Known := by
  cases h with
  | @builtin b low high hrange =>
    refine formOf_supported (by simp [Shape.scalar]) ?_ ?_
    · rintro hb
      cases hb
      cases hrange
    · rintro hb
      cases hb
      cases hrange
  | enum ht he =>
    refine formOf_supported (fun name hname => ?_) (by simp [Shape.scalar]) (by simp [Shape.scalar])
    cases hname
    exact ⟨_, ht⟩

end Schema

namespace Faithful

variable {s : Schema} {lib : Imports.Support} {m : Module} (hm : Faithful s lib m)

include hm

lemma known_cases (h : s.Known name) :
    (∃ fields, s.fields? name = some fields) ∨ ∃ p, s.plan? name = some p := by
  obtain ⟨t, ht, hnot⟩ := h
  obtain ⟨b, hb⟩ := hm.bodied name t ht hnot
  rcases hm.body_trichotomy name with hfields | hplan | hnone
  · exact .inl hfields
  · exact .inr hplan
  · rw [hm.body name, ht, Option.bind_some, hb] at hnone
    cases hnone

section

variable {d : Decoder} (hd : ∀ key, Orderly (d.unpack key)) {i : Input} (hi : 0 ≤ i.offset)
  (hlater : ∀ name, s.Known name → ∀ j, i.Past 4 j → Safe (d.unpack (.type name)) j)
  {name : String} {p : UnionPlan} (hp : s.plan? name = some p)

include hd hi hlater hp

lemma safe_build (ha : a ∈ p.arms) (hpayload : ∀ f ∈ s.payload a, f.2.Supported s.Known)
    (hheld : ∀ f ∈ s.payload a, ∀ key, f.2.held = some key → ∀ j, i.Past n j →
      Safe (d.unpack key) j) (disc : Value) (hj : i.Past n j) :
    Safe (build m d (s.branchOf name p a) disc) j := by
  have hinvoke := fun (vs : Fields) hvs => hm.invoke_arm hp ha vs hvs disc
  unfold Schema.payload at hpayload hheld hinvoke
  refine .settle_bind rfl ?_
  unfold Schema.branchOf
  cases hfield : a.payload? with
  | none =>
    rw [hfield] at hinvoke
    exact .settle (hinvoke [] rfl) j
  | some field =>
    rw [hfield] at hinvoke hpayload hheld
    have hsupported := hpayload _ (.head _)
    refine (Safe.read hd hi hlater hsupported (hheld _ (.head _)) hj).bind
      fun v k _ => ?_
    exact .settle (hinvoke [(field, v)] rfl) k

lemma safe_union (hs : s.Sound) (hc : s.Closed)
    (hheld : ∀ a ∈ p.arms, ∀ f ∈ s.payload a, ∀ key, f.2.held = some key → ∀ j, i.Past n j →
      Safe (d.unpack key) j) (hj : i.Past n j) :
    Safe (Unpack.union m d (s.unionBodyOf name p)) j := by
  obtain ⟨hsound, hnumeric⟩ := hs.plans name p hp
  have hdisc : (s.formOf p.disc).Supported s.Known := hnumeric.supported
  have hnone : ∀ key, (s.formOf p.disc).held = some key → ∀ j, i.Past n j → Safe (d.unpack key) j := by
    rw [hnumeric.held]
    intro key hkey
    cases hkey
  refine (Safe.read hd hi hlater hdisc hnone hj).bind fun disc k hrun => ?_
  have hk := (Orderly.read hd hdisc.forward).past hi hj hrun
  obtain ⟨number, hnumber⟩ := hnumeric.number_of_read (hj.front hi) hrun
  have hbuild : ∀ a, p.select? number = some a → Safe (build m d (s.branchOf name p a) disc) k := by
    intro a ha
    have hmem := UnionPlan.mem_of_select? ha
    exact hm.safe_build hd hi hlater hp hmem (hc.payload_supported hp hmem) (hheld a hmem) disc hk
  obtain ⟨a, ha, hselect | ⟨hselect, hfall⟩⟩ | ⟨-, hselect, hfall⟩ :=
    hm.branch_cases (s := s) name hsound hnumber
  · rw [hselect, settle_ok_bind]
    exact hbuild a ha
  · rw [hselect, settle_ok_bind, hfall]
    exact hbuild a ha
  · -- no arm takes the number, which is told together with its place
    have hshown : shown m disc = .ok disc.numberText := by
      simp [shown, hm.unspoilt, hnumber]
    rw [hselect, settle_ok_bind, hfall]
    refine Safe.bind (fun f j h => by cases h) fun start l _ => ?_
    exact .settle_bind hshown (.fail _ l)

end

lemma safe_plain (hs : s.Sound) (hc : s.Closed) (hrank : s.Ranked rank) (htame : m.Tame names)
    (strict : Bool) (hname : s.Known name) {i : Input} (hi : 0 ≤ i.offset)
    (hn : m.ranks * (i.rest.length / 4) + rank name < n) :
    Safe ((m.plain s lib).unpack strict n (.type name)) i := by
  induction n generalizing name i with
  | zero => omega
  | succ n ih =>
    let d : Decoder := ⟨strict, (m.plain s lib).unpack strict n,
      fun key args => m.construct key args []⟩
    have hd : ∀ key, Orderly (d.unpack key) :=
      Orderly.unpack (plain_forward htame.forward s lib) strict n
    have hranks : ∀ other, rank other < m.ranks := fun other => by
      rw [hm.ranks]
      exact Nat.lt_succ_of_le (hrank.bounded other)
    have hlater : ∀ other, s.Known other → ∀ j, i.Past 4 j → Safe (d.unpack (.type other)) j := by
      intro other hother j hj
      have hlength := hj.length
      exact ih hother (hj.front hi) (levels_below hn (hranks other) (by omega) (.inr hlength))
    have hheld : ∀ form : Form, form.Supported s.Known →
        (∀ other, form.held = some (.type other) → rank other < rank name) →
        ∀ key, form.held = some key → ∀ j, i.Past 0 j → Safe (d.unpack key) j := by
      intro form hform hlower key hkey j hj
      obtain ⟨other, rfl, hother⟩ := hform.of_held hkey
      have hlength := hj.length
      exact ih hother (hj.front hi) (levels_below hn (hranks other) hlength (.inl (hlower other hkey)))
    rw [Module.unpack, own_eq]
    simp only [ClassKey.reader, Module.plain_toGlobals, hm.readable, Bool.not_true, Bool.false_eq_true,
      ite_false]
    rcases hm.known_cases hname with ⟨fields, hfields⟩ | ⟨p, hp⟩
    · have hkeeps := (hm.record name fields hfields).1
      have hsupported := hc.fields_supported hfields
      have hlower := hrank.fields name fields hfields
      obtain ⟨decls, rfl, hbody⟩ := hm.plain_record hfields
      have hslots : (s.slotsOf lib decls).map (fun x => (x.attr, x.form)) = s.fieldsOf decls :=
        slotsOf_fields decls
      rw [← hslots] at hsupported hlower
      simp only [forall_mem_map] at hsupported hlower
      simp only [hbody]
      refine (Safe.values hd hi hlater hsupported (fun x hx => hheld x.form (hsupported x hx) (hlower x hx))
        (.refl i)).bind fun vs j hvs => ?_
      refine .settle (hkeeps.construct vs ?_) j
      rw [values_length hvs]
      simp [Schema.slotsOf, Schema.fieldsOf]
    · have hunion := hm.safe_union hd hi hlater hp hs hc (fun a ha f hf => hheld f.2
        (hc.payload_supported hp ha f hf) (hrank.payload name p hp a ha f hf)) (.refl i)
      simp only [hm.body_union_plain hp]
      intro f j hrun
      refine hunion f j ((hm.union_plain hs hp d hi).trans hrun)

lemma safe_unpack (hs : s.Sound) (hc : s.Closed) (hrank : s.Ranked rank) (htame : m.Tame names)
    (strict : Bool) (hname : s.Known name) {i : Input} (hi : 0 ≤ i.offset)
    (hn : m.ranks * (i.rest.length / 4) + rank name < n) :
    Safe (m.unpack strict n (.type name)) i := by
  intro f j hrun
  rw [hm.unpack_plain hs hrank htame strict (.type name) hi hn hn] at hrun
  exact hm.safe_plain hs hc hrank htame strict hname hi hn f j hrun

end Faithful

/-- A call of a class that is below one of a type: fewer bytes are left for it, or at the same place it
is for a type of lower rank. -/
def Input.Descends (rank : String → Nat) (name : String) (i : Input) (key : ClassKey) (j : Input) :
    Prop :=
  j.rest.length < i.rest.length ∨ j = i ∧ ∃ other, key = .type other ∧ rank other < rank name

def IsSettled (found : Except Fault (Value × List UInt8)) : Prop :=
  (∃ v rest, found = .ok (v, rest)) ∨ ∃ f : DecodeFault, found = .error (.decode f)

lemma Safe.isSettled {r : Nat → Read Value} (h : Safe (r data.length) (Input.ofBytes data)) :
    IsSettled (Read.found r data) := by
  cases hfound : Read.found r data with
  | ok pair => exact .inl ⟨pair.1, pair.2, rfl⟩
  | error f =>
    obtain ⟨j, hrun⟩ := Read.run_of_found_error hfound
    obtain ⟨g, rfl⟩ := h f j hrun
    exact .inr ⟨g, rfl⟩

namespace Faithful

variable {s : Schema} {lib : Imports.Support} {m : Module} (hm : Faithful s lib m)

include hm

lemma isSettled_decodeInstance (hs : s.Sound) (hc : s.Closed) (hrank : s.Ranked rank)
    (htame : m.Tame names) (strict : Bool) (hname : s.Known name) (data : List UInt8) :
    IsSettled (m.decodeInstance strict (.type name) data) := by
  have hsafe : Safe (m.unpack strict (m.levels data.length) (.type name)) (Input.ofBytes data) := by
    refine hm.safe_unpack hs hc hrank htame strict hname le_rfl ?_
    have hbounded := hrank.bounded name
    have hranks := hm.ranks
    simp only [Input.ofBytes, Module.levels, Nat.mul_add]
    omega
  exact Safe.isSettled (r := fun size => m.unpack strict (m.levels size) (.type name)) hsafe

lemma laid_of_decodeInstance (hs : s.Sound)
    (h : m.decodeInstance strict (.type name) data = .ok (v, rest)) :
    ∃ cells taken, s.InstanceLaid (fun _ _ => True) (.type name) v cells ∧ cells.Fits strict taken ∧
      data = taken ++ rest ∧ v.viewed = v := by
  let P : UInt64 → Prop := fun _ => True
  let R : UInt64 → Nat → Prop := fun _ _ => True
  have htakes : Takes strict (m.unpack strict (m.levels data.length) (.type name)) fun c v =>
      (v.AllFloats P → s.InstanceLaid R (.type name) v c) ∧ v.viewed = v ∧ v.isNull = false :=
    hm.takes_unpack hs (fun _ _ _ => trivial) _ name
  obtain ⟨j, rfl, hrun⟩ := Read.run_of_found_ok
    (r := fun size => m.unpack strict (m.levels size) (.type name)) h
  obtain ⟨cells, bs, tail, hfits, hdata, rfl, hlaid, hviewed, -⟩ := htakes data data 0 v j hrun
  exact ⟨cells, bs, hlaid (Value.allFloats_of_forall (fun _ => trivial) v), hfits, hdata, hviewed⟩

lemma checkKind_of_decodeInstance (hs : s.Sound)
    (h : m.decodeInstance strict (.type name) data = .ok (v, rest)) :
    m.checkKind (.type name) v = .ok () := by
  obtain ⟨cells, taken, hlaid, -, -, hviewed⟩ := hm.laid_of_decodeInstance hs h
  have hcheck := hm.checkKind_of_laid hlaid
  rwa [hviewed] at hcheck

end Faithful

/-- Every type decodes any bytes: it finds a value, or it tells what is wrong with them. What one level
of decoding does depends on calls below it only, and a list takes no more rounds than there are words. -/
theorem decode_total {spec : Ast.Specification} {c : Config} {s : Schema} {m : Module}
    (hgen : Generates spec c s m) (hnames : s.Unambiguous) :
    (∀ t ∈ s.types, ∀ strict data,
      (∃ v rest, m.decodeType t.name strict data = .ok (v, rest)) ∨
        ∃ f : DecodeFault, m.decodeType t.name strict data = .error (.decode f)) ∧
    ∃ rank, s.Ranked rank ∧ ∀ (name : String) (strict : Bool) (n : Nat) (i : Input), 0 ≤ i.offset →
      i.rest.length < 4 * (n + 1) → ∀ (rounds : Nat) (call : ClassKey → Read Value),
      i.rest.length < 4 * rounds →
      (∀ key j, i.Descends rank name key j → call key j = m.unpack strict n key j) →
      Unpack.own m ⟨strict, call, fun key args => m.construct key args []⟩ rounds (.type name) i =
        m.unpack strict (n + 1) (.type name) i := by
  obtain ⟨lib, -, hm⟩ := hgen.faithful hnames
  obtain ⟨rank, hrank⟩ := hgen.ranked
  have htame := hgen.tame
  refine ⟨fun t ht strict data => ?_, rank, hrank, fun name strict n i hi hn rounds call hrounds hcall => ?_⟩
  · have hfind := hgen.sound.find?_name ht
    rw [hgen.decodeType_eq hnames ht]
    obtain ⟨e, he, -, hcls⟩ | ⟨hnot, -, hcls⟩ := Schema.type_cases hfind
    · have henum : m.decodeAs (.cls (.enum t.name)) (some strict) data =
          Read.found (fun _ => Read.enum ⟨e.name, e.variants, []⟩) data := by
        have hkey : (ClassKey.enum t.name).isEnum := rfl
        rw [Module.decodeAs, if_pos hkey, Module.decodeEnum, Globals.enumOf?, hm.enum t.name t e hfind he]
        rfl
      rw [hcls, henum]
      exact Safe.isSettled (Total.enum rfl _ le_rfl)
    · rw [hcls, Module.decodeAs_cls m rfl]
      rcases hm.isSettled_decodeInstance hgen.sound hgen.closed hrank htame strict ⟨t, hfind, hnot⟩ data
        with ⟨v, rest, hfound⟩ | ⟨f, hfound⟩
      · refine .inl ⟨v, rest, ?_⟩
        simp only [hfound, bind, Except.bind, hm.checkKind_of_decodeInstance hgen.sound hfound]
        rfl
      · refine .inr ⟨f, ?_⟩
        simp only [hfound, bind, Except.bind]
  · let d : Decoder := ⟨strict, m.unpack strict n, fun key args => m.construct key args []⟩
    have hd : ∀ key, Orderly (d.unpack key) := htame.orderly strict n
    have hlater : ∀ key j, i.Past 4 j → Agrees (fun _ => False) (d.unpack key) (call key) j := by
      intro key j hj _
      have hlength := hj.length
      exact hcall key j (.inl (by omega))
    refine Agrees.own hd hi hlater m (htame.forward _) (fun b hb key hkey _ => ?_)
      ⟨.inr hn, .inr hrounds⟩ fun _ _ _ h => h
    exact hcall key i (.inr ⟨rfl, hm.lower_of_holds hgen.sound hrank hb hkey⟩)

theorem decode_total_entry :
    (∀ strict data, (∃ v rest, Entries.loaded.decodeType "entry" strict data = .ok (v, rest)) ∨
      ∃ f : DecodeFault, Entries.loaded.decodeType "entry" strict data = .error (.decode f)) ∧
    ∃ rank, Entries.schema.Ranked rank ∧
      Unpack.own Entries.loaded ⟨true, Entries.loaded.unpack true 20, fun key args =>
          Entries.loaded.construct key args []⟩ 13 (.type "entry") (Input.ofBytes Entries.twoBytes) =
        Entries.loaded.unpack true 21 (.type "entry") (Input.ofBytes Entries.twoBytes) := by
  obtain ⟨hsettled, rank, hrank, hcalls⟩ := decode_total Entries.generates Entries.schema_unambiguous
  refine ⟨hsettled Entries.entryType Entries.entryType_mem, rank, hrank, ?_⟩
  exact hcalls "entry" true 20 _ (by decide) (by decide) 13 _ (by decide) fun _ _ _ => rfl

end Xdr
