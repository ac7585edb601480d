import Xdr.Proofs.Codec.Traced
import Xdr.Proofs.Totality

/-!
# Faults tell where and what

Under unambiguous names a fault of decoding tells the truth about the bytes at its offset: there are
too few of them, or they are a number that is no truth value, no flag, no value of the enum or no
label of the union that it names, or a length beyond its bound, padding that is not zero, or no text.
-/

namespace Xdr

open Naming Wire

variable {strict : Bool} {name : String} {p : UnionPlan} {data : List UInt8} {f : DecodeFault}
  {lib : Imports.Support} {key : ClassKey} {v : Value} {body : Body} {a : ArmPlan}

/-- The number of a discriminant is stored at a place. -/
def UnionPlan.Stored (p : UnionPlan) (data : List UInt8) (start n : Int) : Prop :=
  StoredAt data start p.disc.base.stored.1 p.disc.base.stored.2 n

namespace Schema

variable {s : Schema}

/-- What faults say of the enums and unions of a schema. A union is named where no arm is selected. An
arm is named where another one is selected: its discriminant is then at the front. -/
def blame (s : Schema) : Blame where
  strict := true
  enum e := ∃ t ∈ s.types, ∃ d, t.definition = .enum d ∧ e = ⟨d.name, d.variants, []⟩
  union data name value start := ∃ union p, s.plan? union = some p ∧ p.Stored data start value ∧
    (name = union ∧ p.select? value = none ∨
      start = 0 ∧ ∃ a ∈ p.arms, ∃ b, name = (ClassKey.arm union a.attr).qualifiedName ∧
        p.select? value = some b ∧ b ≠ a)

lemma Numeric.number_of_laid {shape : Shape} (h : s.Numeric shape)
    {I : ClassKey → Value → Cells → Prop} {R : UInt64 → Nat → Prop} {c : Cells}
    (hv : FormLaid I R (s.formOf shape) v c) {bs : List UInt8} (hbs : c.Fits strict bs) :
    bs.length = shape.base.stored.1 ∧ ∃ k, v.wholeNumber? = some k ∧
      k = if shape.base.stored.2 then signed shape.base.stored.1 (natOfBytes bs)
        else (natOfBytes bs : Int) := by
  have hnumber : ∀ {n : Int} {width : Nat}, FitsSigned width n → ∀ {bs : List UInt8},
      (Cells.ofBytes (signedBytes width n)).Fits strict bs →
      bs.length = width ∧ n = signed width (natOfBytes bs) := by
    intro n width hn bs hbs
    obtain rfl := Cells.fits_ofBytes_iff.1 hbs
    exact ⟨signedBytes_length width n, (signed_natOfBytes_signedBytes hn).symm⟩
  have hword : ∀ {n width : Nat}, n < 256 ^ width → ∀ {bs : List UInt8},
      (Cells.ofBytes (bigEndian width n)).Fits strict bs → bs.length = width ∧ n = natOfBytes bs := by
    intro n width hn bs hbs
    obtain rfl := Cells.fits_ofBytes_iff.1 hbs
    exact ⟨bigEndian_length width n, (natOfBytes_bigEndian_of_lt hn).symm⟩
  cases h with
  | @builtin b low high hrange =>
    have hform : s.formOf (.scalar (.builtin b)) = .scalar b := by
      cases b <;> first | rfl | cases hrange
    rw [hform] at hv
    cases hv with
    | scalar hv =>
      cases hv with
      | int hn => exact ⟨(hnumber hn hbs).1, _, rfl, (hnumber hn hbs).2⟩
      | uint hn => exact ⟨(hword hn hbs).1, _, rfl, congrArg Int.ofNat (hword hn hbs).2⟩
      | hyper hn => exact ⟨(hnumber hn hbs).1, _, rfl, (hnumber hn hbs).2⟩
      | uhyper hn => exact ⟨(hword hn hbs).1, _, rfl, congrArg Int.ofNat (hword hn hbs).2⟩
      | bool t =>
        rw [← number_toNat] at hbs
        obtain ⟨hlength, hn⟩ := hnumber (fitsSigned_toNat t) hbs
        exact ⟨hlength, _, rfl, by cases t <;> exact hn⟩
      | _ => cases hrange
  | enum ht he =>
    have hform := formNamed_of_enum ht he
    rw [formNamed] at hform
    rw [hform] at hv
    cases hv with
    | enum hmem hn => exact ⟨(hnumber hn hbs).1, _, rfl, (hnumber hn hbs).2⟩

lemma plan?_of_fields? {fields : List (String × Form)} (h : s.fields? name = some fields) :
    s.plan? name = none := by
  unfold fields? at h
  unfold plan?
  split at h
  · rename_i hfind
    rw [hfind]
  · rename_i hfind
    rw [hfind]
  · cases h

lemma classNamed_of_plan (h : s.plan? name = some p) : s.classNamed name = .cls (.type name) := by
  unfold plan? at h
  split at h
  · rename_i hfind
    simp only [classNamed, meant, hfind]
  · cases h

lemma formOf_names (s : Schema) (shape : Shape) : (s.formOf shape).Names s.blame.enum := by
  have helement : ∀ base, (s.elementForm s.meant base).Names s.blame.enum := by
    intro base
    cases base with
    | builtin b => trivial
    | named name =>
      have hmeant : ∀ e ∈ (s.meant name).enum?, s.blame.enum e := by
        intro e he
        unfold meant at he
        split at he
        · rename_i d _ _ _ _ hfind
          cases he
          exact ⟨_, (mem_of_find? hfind).1, d, rfl, rfl⟩
        · cases he
      unfold elementForm
      dsimp only
      split <;> exact hmeant
  have hview := formOf_view s shape
  generalize s.formOf shape = form at hview ⊢
  cases hview with
  | fixedOpaque | varOpaque | string => trivial
  | _ => exact helement _

end Schema

namespace Faithful

variable {s : Schema} {lib : Imports.Support} {m : Module} (hm : Faithful s lib m)

include hm

lemma unselected_of_read (hs : s.Sound) (hsized : s.Sized) (hp : s.plan? name = some p)
    {d : Decoder} {i j : Input} (hi : i.Stands)
    (hrun : (s.unionBodyOf name p).disc.read d i = (.ok v, j))
    (hselect : Unpack.select m v (s.unionBodyOf name p).branches = .ok none)
    (hdefault : (s.unionBodyOf name p).fallback = none) :
    ∃ cells k, FormLaid (fun _ _ _ => False) (fun _ _ => True) (s.formOf p.disc) v cells ∧
      v.wholeNumber? = some k ∧ p.select? k = none ∧ p.Stored i.data (j.offset - p.discSize) k := by
  obtain ⟨hsound, hnumeric⟩ := hs.plans name p hp
  have hfront := hi.front
  obtain ⟨data, rest, offset⟩ := i
  obtain ⟨start, rfl⟩ := Int.eq_ofNat_of_zero_le hfront
  obtain ⟨cells, bs, tail, hfits, rfl, rfl, hlaid⟩ :=
    hnumeric.takes d false data rest start v j hrun
  obtain ⟨hlength, k, hk, hvalue⟩ := hnumeric.number_of_laid hlaid hfits
  have hsize : p.discSize = bs.length := by
    have hfixed := (hsized.discSize name p hp).symm.trans (hnumeric.size_eq hsized.enum)
    rw [hlength]
    exact Size.fixed.inj hfixed
  have hgoes : Input.Goes ⟨data, bs ++ tail, start⟩ bs ⟨data, tail, (start + bs.length : Nat)⟩ :=
    ⟨rfl, rfl, by simp⟩
  have hplace : ((start + bs.length : Nat) : Int) - p.discSize = start := by
    rw [hsize]
    push_cast
    omega
  refine ⟨cells, k, hlaid, hk, ?_, ?_⟩
  · rcases hm.branch_cases name hsound hk with ⟨a, -, hfound | ⟨-, hfound⟩⟩ | ⟨hnone, -, -⟩
    · cases hfound.symm.trans hselect
    · cases hfound.symm.trans hdefault
    · exact hnone
  · rw [hplace]
    exact ⟨bs, hi.standsAt hgoes, hlength, hvalue⟩

lemma blames_union (hs : s.Sound) (hsized : s.Sized) (hp : s.plan? name = some p) :
    (Body.union (s.unionBodyOf name p)).Blames m s.blame := by
  intro d i v j hi hrun hselect hdefault
  obtain ⟨-, k, -, hk, hnone, hstored⟩ :=
    hm.unselected_of_read hs hsized hp hi hrun hselect hdefault
  rw [hk]
  exact ⟨name, p, hp, hstored, .inl ⟨rfl, hnone⟩⟩

lemma names_body (hb : m.body? (.type name) = some body) :
    ∀ form ∈ body.forms, form.Names s.blame.enum := by
  have hslots : ∀ decls, ∀ x ∈ s.slotsOf lib decls, x.form.Names s.blame.enum := by
    intro decls x hx
    obtain ⟨f, -, rfl⟩ := List.mem_map.1 hx
    exact s.formOf_names _
  rw [hm.body name] at hb
  obtain ⟨t, -, hb⟩ := Option.bind_eq_some_iff.1 hb
  cases hd : t.definition with
  | enum e =>
    rw [hd] at hb
    cases hb
  | struct d =>
    rw [hd, Schema.bodyOf] at hb
    split at hb <;> cases hb
    · exact List.forall_mem_map.2 (hslots d.plan)
    · exact Body.forall_chain.2 ⟨hslots _, hslots _⟩
  | typedef d =>
    rw [hd] at hb
    cases hb
    exact fun form hform => List.mem_singleton.1 hform ▸ s.formOf_names _
  | union u =>
    rw [hd] at hb
    obtain ⟨p, -, rfl⟩ := Option.map_eq_some_iff.1 hb
    refine Body.forall_union.2 ⟨s.formOf_names _, fun b hb form hform => ?_⟩
    obtain ⟨a, -, rfl⟩ := Schema.exists_arm hb
    obtain ⟨_, -, rfl⟩ := Option.map_eq_some_iff.1 hform
    exact s.formOf_names _

lemma blames_body (hs : s.Sound) (hsized : s.Sized) (hb : m.body? (.type name) = some body) :
    body.Blames m s.blame := by
  rcases hm.body_trichotomy name with ⟨fields, hfields⟩ | ⟨p, hp⟩ | hnone
  · rcases hm.body_cases hfields with ⟨decls, -, hbody⟩ | ⟨c, _, hbody, -⟩
    · cases hb.symm.trans hbody
      trivial
    · cases hb.symm.trans hbody
      trivial
  · cases hb.symm.trans (hm.body_union hp)
    exact hm.blames_union hs hsized hp
  · cases hb.symm.trans hnone

end Faithful

lemma Module.points_of_fair (m : Module) {b : Blame} (hstrict : b.strict = true)
    (hfair : ∀ (key : ClassKey) body, m.body? key.reader = some body → body.Fair m b)
    (h : m.decodeInstance strict key data = .error (.decode f)) : f.Points b data := by
  obtain ⟨j, hrun⟩ := Read.run_of_found_error
    (r := fun size => m.unpack strict (m.levels size) key) h
  exact (m.pointing_unpack (fun _ => hstrict) hfair (m.levels data.length) key
    (Input.ofBytes data) (Input.stands_ofBytes data) _ _ hrun).2 f rfl

namespace Generates

variable {spec : Ast.Specification} {c : Config} {s : Schema} {m : Module}
  (hgen : Generates spec c s m)

include hgen

lemma fair (hm : Faithful s lib m) :
    ∀ (key : ClassKey) body, m.body? key.reader = some body → body.Fair m s.blame := by
  obtain ⟨l, hbody⟩ := hgen.exists_linker
  intro key body hb
  obtain ⟨t, -, size, hentry⟩ := hbody key.reader body hb
  obtain ⟨name, hname⟩ : ∃ name, key.reader = .type name := by
    have hkey := Linker.belongsTo_of_mem_bodies hentry
    cases key with
    | enum name | root r => exact hkey.elim
    | type name | arm name attr => exact ⟨name, rfl⟩
  rw [hname] at hb
  refine ⟨fun form hform => ?_, Linker.quiet_of_mem_bodies hentry,
    hm.blames_body hgen.sound hgen.sized hb⟩
  obtain ⟨hforward, hquiet⟩ := Linker.forward_and_quiet hentry hform
  exact ⟨hforward, hquiet, hm.names_body hb form hform⟩

lemma points_of_decodeInstance (hm : Faithful s lib m)
    (h : m.decodeInstance strict key data = .error (.decode f)) : f.Points s.blame data :=
  m.points_of_fair rfl (hgen.fair hm) h

end Generates

lemma Module.decodeInstance_arm (m : Module) (strict : Bool) (union attr : String)
    (data : List UInt8) :
    m.decodeInstance strict (.arm union attr) data = m.decodeInstance strict (.type union) data := by
  have hunpack : ∀ n, m.unpack strict n (.arm union attr) = m.unpack strict n (.type union) := by
    intro n
    cases n <;> rfl
  rw [decodeInstance, decodeInstance, decodeRun, decodeRun, hunpack]

lemma Faithful.points_of_checkArm {s : Schema} {m : Module} (hm : Faithful s lib m)
    (hs : s.Sound) (hp : s.plan? name = some p) (ha : a ∈ p.arms) {rest : List UInt8}
    (hfound : m.decodeInstance strict (.type name) data = .ok (v, rest))
    (h : m.checkArm (.arm name a.attr) v = .error (.decode f)) : f.Points s.blame data := by
  obtain ⟨cells, taken, hlaid, hfits, rfl, -⟩ := hm.laid_of_decodeInstance hs hfound
  cases hlaid with
  | record hfields _ => exact absurd hp (by simp [Schema.plan?_of_fields? hfields])
  | @union _ q b disc k vs c d hq hdisc hk hb hrest =>
    cases hp.symm.trans hq
    obtain ⟨front, behind, rfl, hfront, -⟩ := Cells.fits_append_left hfits
    obtain ⟨hlength, k', hk', hvalue⟩ := (hs.plans name p hp).2.number_of_laid hdisc hfront
    cases hk.symm.trans hk'
    have hstored : p.Stored (front ++ behind ++ rest) 0 k :=
      ⟨front, ⟨[], behind ++ rest, by simp, rfl⟩, hlength, hvalue⟩
    have hlast : (vs ++ [(p.discField, disc)]).getLast? = some (p.discField, disc) := by simp
    unfold Module.checkArm at h
    simp only [hlast] at h
    split_ifs at h with hwithin
    have hother : b ≠ a := by
      rintro rfl
      simp [Module.isWithin] at hwithin
    split at h
    · cases h
    · rename_i heq _
      cases heq
      split at h
      · rename_i g hg
        cases h
        exact absurd hg (Unpack.quiet_shown disc _)
      · cases h
        rw [hk]
        exact ⟨name, p, hp, hstored, .inr ⟨rfl, a, ha, b, rfl, hb, hother⟩⟩
    · cases h

lemma Module.exists_strict (m : Module) (hkey : key.isEnum = false) {strict : Option Bool}
    (h : m.decodeAs (.cls key) strict data = .error (.decode f)) :
    ∃ given, m.decodeAs (.cls key) (some given) data = .error (.decode f) := by
  cases strict with
  | some given => exact ⟨given, h⟩
  | none =>
    cases hattr : m.attr (.cls key) "STRICT_PADDING" with
    | error g =>
      rw [decodeAs, hkey, hattr] at h
      cases h
      exact absurd hattr (m.quiet_attr _ _ f)
    | ok v =>
      have hsame : m.decodeAs (.cls key) none data = m.decodeAs (.cls key) (some v.truth) data := by
        rw [decodeAs, decodeAs, hattr]
        rfl
      exact ⟨v.truth, hsame ▸ h⟩

lemma DecodeFault.Points.within {s : Schema} (h : f.Points s.blame data) :
    0 ≤ f.offset ∧ f.offset ≤ data.length := by
  have hstored : ∀ {start : Int} {width : Nat} {sign : Bool} {n : Int},
      StoredAt data start width sign n → 0 ≤ start ∧ start ≤ data.length := by
    rintro start width sign n ⟨bs, hstands, -, -⟩
    have hwithin := hstands.within
    omega
  cases f with
  | insufficientBytes needed available start =>
    obtain ⟨hstart, havailable, htotal, -⟩ := h
    simp only [offset]
    omega
  | unknownDiscriminant union value shown start =>
    obtain ⟨_, _, -, hvalue, -⟩ := h
    exact hstored hvalue
  | unknownEnumValue enum value start | invalidLength length bound start
  | invalidBoolean value start | invalidOptionalFlag value start => exact hstored h.1
  | nonUtf8 reason start =>
    obtain ⟨_, _, hstands, -⟩ := h
    have hwithin := hstands.within
    simp only [offset]
    omega
  | invalidPadding start =>
    obtain ⟨-, _, hstands, -⟩ := h
    have hwithin := hstands.within
    simp only [offset]
    omega

namespace Generates

variable {spec : Ast.Specification} {c : Config} {s : Schema} {m : Module}
  (hgen : Generates spec c s m)

include hgen

lemma points_of_arm (hm : Faithful s lib m) (hp : s.plan? name = some p) (ha : a ∈ p.arms)
    {strict : Option Bool}
    (h : m.decodeAs (.cls (.arm name a.attr)) strict data = .error (.decode f)) :
    f.Points s.blame data := by
  obtain ⟨given, h⟩ := m.exists_strict rfl h
  rw [m.decodeAs_cls rfl, m.decodeInstance_arm] at h
  cases hfound : m.decodeInstance given (.type name) data with
  | error g =>
    rw [hfound] at h
    cases h
    exact hgen.points_of_decodeInstance hm hfound
  | ok found =>
    obtain ⟨v, rest⟩ := found
    simp only [hfound, bind, Except.bind] at h
    refine hm.points_of_checkArm hgen.sound hp ha hfound (f := f) ?_
    unfold Module.checkKind at h
    split at h
    · rename_i g hcheck
      cases h
      split at hcheck
      · exact hcheck
      · exact hcheck
      · cases hcheck
    · cases h

lemma points_of_type (hm : Faithful s lib m) {t : TypeInfo} (ht : t ∈ s.types)
    {strict : Option Bool} (h : m.decodeAs (s.classNamed t.name) strict data = .error (.decode f)) :
    f.Points s.blame data := by
  have hfind := hgen.sound.find?_name ht
  obtain ⟨e, he, -, hcls⟩ | ⟨-, -, hcls⟩ := Schema.type_cases hfind
  · have hkey : (ClassKey.enum t.name).isEnum = true := rfl
    rw [hcls, Module.decodeAs, if_pos hkey, Module.decodeEnum, Globals.enumOf?,
      hm.enum t.name t e hfind he] at h
    have hpoints : Pointing s.blame (Read.enum ⟨e.name, e.variants, []⟩) (Input.ofBytes data) :=
      .enum ⟨t, ht, e, he, rfl⟩
    dsimp only at h
    split at h
    · cases h
    · rename_i g j hrun
      cases h
      exact (hpoints (Input.stands_ofBytes data) _ _ hrun).2 f rfl
  · rw [hcls] at h
    obtain ⟨given, h⟩ := m.exists_strict rfl h
    rw [m.decodeAs_cls rfl] at h
    cases hfound : m.decodeInstance given (.type t.name) data with
    | error g =>
      rw [hfound] at h
      cases h
      exact hgen.points_of_decodeInstance hm hfound
    | ok found =>
      obtain ⟨v, rest⟩ := found
      simp only [hfound, bind, Except.bind, hm.checkKind_of_decodeInstance hgen.sound hfound] at h
      cases h

end Generates

/-- Where decoding by a type or by an arm of a union fails for the bytes, the offset is within the
data, and the fault tells the truth about the bytes that stand there. -/
theorem decode_fault_points {spec : Ast.Specification} {c : Config} {s : Schema} {m : Module}
    (hgen : Generates spec c s m) (hnames : s.Unambiguous) (strict : Option Bool) (data : List UInt8)
    (f : DecodeFault) :
    (∀ t ∈ s.types, (do m.decodeAs (← m.top (globalName t.name)) strict data) = .error (.decode f) →
      0 ≤ f.offset ∧ f.offset ≤ data.length ∧ f.Points s.blame data) ∧
    ∀ t ∈ s.types, ∀ p, s.plan? t.name = some p → ∀ a ∈ p.arms,
      (do m.decodeAs (← m.attr (← m.top (globalName t.name)) a.attr) strict data) =
        .error (.decode f) →
      0 ≤ f.offset ∧ f.offset ≤ data.length ∧ f.Points s.blame data := by
  obtain ⟨lib, -, hm⟩ := hgen.faithful hnames
  refine ⟨fun t ht h => ?_, fun t ht p hp a ha h => ?_⟩
  · rw [hgen.top_eq hnames ht] at h
    have hpoints := hgen.points_of_type hm ht h
    exact ⟨hpoints.within.1, hpoints.within.2, hpoints⟩
  · rw [hgen.top_eq hnames ht, Schema.classNamed_of_plan hp] at h
    change (do m.decodeAs (← m.attr (.cls (.type t.name)) a.attr) strict data) = _ at h
    rw [hgen.attr_arm hnames hp ha] at h
    have hpoints := hgen.points_of_arm hm hp ha h
    exact ⟨hpoints.within.1, hpoints.within.2, hpoints⟩

theorem decode_fault_points_paint :
    (DecodeFault.unknownDiscriminant "paint.RED" 2 "2" 0).Points Entries.schema.blame [0, 0, 0, 2] ∧
    (DecodeFault.unknownEnumValue "color" 9 0).Points Entries.schema.blame [0, 0, 0, 9] := by
  let paint : TypeInfo := (Entries.schema.find? "paint").get (by decide +kernel)
  have hpaint : paint ∈ Entries.schema.types := by decide +kernel
  let red : ArmPlan := ⟨"RED", [1], ⟨⟨.builtin .opaqueBytes, .fixed, some 3⟩, some "mix"⟩, false⟩
  let plan : UnionPlan := ⟨.scalar (.named "color"), "hue", 4, some ⟨"color", [("RED", 1), ("BLUE", 2)]⟩,
    [red, ⟨"default", [], ⟨.scalar (.builtin .void), none⟩, true⟩], [1]⟩
  have hplan : Entries.schema.plan? paint.name = some plan := by decide +kernel
  have hother := (decode_fault_points Entries.generates Entries.schema_unambiguous none [0, 0, 0, 2]
    (.unknownDiscriminant "paint.RED" 2 "2" 0)).2 paint hpaint plan hplan red (by simp [plan])
    (Value.eq_of_isRefused (by decide +kernel))
  have hunknown := (decode_fault_points Entries.generates Entries.schema_unambiguous (some true)
    [0, 0, 0, 9] (.unknownEnumValue "color" 9 0)).1 paint hpaint
    (Value.eq_of_isRefused (by decide +kernel))
  exact ⟨hother.2.2, hunknown.2.2⟩

end Xdr
