import Xdr.Proofs.Faults
import Xdr.Proofs.Schema.Rearranging

/-!
# One arm for each discriminant

A discriminant selects at most one arm of its union. Decoding goes on with that arm, and it is the
only arm whose encoding accepts the discriminant.
-/

namespace Xdr

open Wire

variable {name : String} {disc v : Value} {k : Int} {I : ClassKey → Value → Cells → Prop}
  {R : UInt64 → Nat → Prop} {p : UnionPlan}

lemma Schema.Numeric.reads {s : Schema} {shape : Shape} (h : s.Numeric shape) (hs : s.Sound)
    {c : Cells} (hv : FormLaid I R (s.formOf shape) v c) (d : Decoder) (strict : Bool) :
    Reads strict ((s.formOf shape).read d) c v := by
  obtain ⟨b, low, high, hrange, hform⟩ | ⟨e, hform⟩ := h.form_cases
  · rw [hform] at hv ⊢
    cases hv with
    | scalar hv =>
      have hplain : ScalarLaid (fun _ _ => False) b v c := by
        cases hv with
        | int h => exact .int h
        | uint h => exact .uint h
        | hyper h => exact .hyper h
        | uhyper h => exact .uhyper h
        | bool t => exact .bool t
        | _ => cases hrange
      exact reads_scalar (fun _ _ => False.elim) hplain
  · have hregular := hs.formOf_regular shape
    rw [hform] at hv hregular ⊢
    cases hv with
    | enum hmem hn => exact reads_enum hmem hn hregular.2

/-- What the classes of a module do to decode below the outermost level. -/
def Module.decoder (m : Module) (strict : Bool) (size : Nat) : Decoder :=
  ⟨strict, m.unpack strict (m.ranks * (size / 4 + 1)), fun key args => m.construct key args []⟩

lemma Write.refuse_ne_pure (c : Conduct) (v : Value) (reason : String → EncodeFault) :
    Write.refuse c v reason ≠ pure () := by
  unfold refuse
  cases c.text v with
  | ok shown | error f => exact fun h => nomatch congrFun h #[]

namespace Faithful

variable {s : Schema} {lib : Imports.Support} {m : Module} (hm : Faithful s lib m)

include hm

lemma shown_number (hk : disc.wholeNumber? = some k) :
    Unpack.shown m disc = .ok disc.numberText := by
  simp [Unpack.shown, hm.unspoilt, hk]

lemma decodeRun_union (hs : s.Sound) (hsized : s.Sized) (hp : s.plan? name = some p)
    {cells : Cells} (hdisc : FormLaid I R (s.formOf p.disc) disc cells)
    (hk : disc.wholeNumber? = some k) {strict : Bool} {bs : List UInt8} (hbs : cells.Fits strict bs)
    (rest : List UInt8) :
    m.decodeRun strict (.type name) (bs ++ rest) =
      match p.select? k with
      | some a => Unpack.build m (m.decoder strict (bs ++ rest).length) (s.branchOf name p a) disc
          ⟨bs ++ rest, rest, bs.length⟩
      | none => (.error (.decode (.unknownDiscriminant name k disc.numberText 0)),
          ⟨bs ++ rest, rest, bs.length⟩) := by
  obtain ⟨hsound, hnumeric⟩ := hs.plans name p hp
  have hsize : bs.length = p.discSize := by
    have hfixed := (hsized.discSize name p hp).symm.trans (hnumeric.size_eq hsized.enum)
    rw [(hnumeric.number_of_laid hdisc hbs).1]
    exact (Size.fixed.inj hfixed).symm
  have hread : (s.unionBodyOf name p).disc.read (m.decoder strict (bs ++ rest).length) _ = _ :=
    hnumeric.reads hs hdisc _ strict bs hbs (bs ++ rest) rest 0
  have hrun : m.decodeRun strict (.type name) (bs ++ rest) =
      Unpack.union m (m.decoder strict (bs ++ rest).length) (s.unionBodyOf name p)
        ⟨bs ++ rest, bs ++ rest, (0 : Nat)⟩ := by
    show Unpack.own m (m.decoder strict (bs ++ rest).length) _ (.type name) _ = _
    unfold Unpack.own
    simp only [hm.readable name, Bool.not_true, Bool.false_eq_true, ite_false, hm.body_union hp]
    rfl
  rw [Nat.zero_add] at hread
  rw [hrun, Unpack.union, run_bind_of_ok hread]
  obtain ⟨a, ha, hselect | ⟨hselect, hfall⟩⟩ | ⟨hnone, hselect, hfall⟩ :=
    hm.branch_cases (s := s) name hsound hk
  · rw [ha, hselect, Unpack.settle_ok_bind]
  · rw [ha, hselect, hfall, Unpack.settle_ok_bind]
  · have hstart : (bs.length : Int) - (s.unionBodyOf name p).discSize = 0 := by
      rw [hsize]
      exact Int.sub_self _
    rw [hnone, hselect, hfall, Unpack.settle_ok_bind]
    have hoffset : Read.offset ⟨bs ++ rest, rest, bs.length⟩ =
      (.ok (bs.length : Int), ⟨bs ++ rest, rest, bs.length⟩) := rfl
    simp only [run_bind_of_ok hoffset, hm.shown_number hk, Unpack.settle_ok_bind, hstart, hk,
      Option.getD_some]
    rfl

lemma check_eq_pure_iff (hs : s.Sound) (hp : s.plan? name = some p) {a : ArmPlan}
    (ha : a ∈ p.arms) (e : Encoder) {vs : Fields}
    (hvs : vs.map (·.1) = (s.payload a).map (·.1)) (hk : disc.wholeNumber? = some k) :
    Pack.check m e (.arm name a.attr) (s.armBodyOf lib p a)
      (.object (.arm name a.attr) (vs ++ [(p.discField, disc)])) disc = pure () ↔
      p.select? k = some a := by
  have hnames : (vs ++ [(p.discField, disc)]).map (·.1) = (s.payload a).map (·.1) ++ [p.discField] := by
    simp [hvs]
  obtain ⟨reason, hcheck⟩ := hm.check_eq hp (hs.plans name p hp).1 ha e hnames hk
  rw [hcheck]
  split_ifs with hselect
  · exact iff_of_true rfl hselect
  · exact iff_of_false (Write.refuse_ne_pure _ _ _) hselect

end Faithful

lemma encode_rearrange {s t : Schema} (hst : s.Rearranged t) (hs : s.Sound) (ht : t.Sound)
    {lib other : Imports.Support} {m n : Module} (hm : Faithful s lib m)
    (hn : Faithful t other n) {i j : TypeInfo} (hi : s.find? name = some i)
    (hj : t.find? name = some j) (hv : s.HasType (fun _ => True) (fun _ => True) name v)
    {bytes : List UInt8} (h : m.encode v = .ok bytes) :
    n.encode (v.recast (s.recast t)) = .ok bytes := by
  -- a number is laid out in the four bytes that it is narrowed to
  obtain ⟨cells, hlaid, rfl⟩ := hm.laid_of_encode hi hs
    (R := fun bits n => Number.narrow? bits.toNat = some n)
    (fun bits n _ hn => ⟨Number.narrow?_lt hn, hn⟩) hv h
  exact hn.encode_of_laid hj ht (fun bits n _ hn => hn) (hst.laid hs ht hlaid)
    (Value.allFloats_of_forall (fun _ => trivial) _)

/-- Decoding goes on with the arm that a discriminant selects, and the check of the discriminant
passes for that arm only. -/
structure Module.Follows (m : Module) (s : Schema) (name : String) (p : UnionPlan) (disc : Value)
    (cells : Cells) (k : Int) : Prop where
  decode : ∀ strict bs rest, cells.Fits strict bs → m.decodeRun strict (.type name) (bs ++ rest) =
    match p.select? k with
    | some a => Unpack.build m (m.decoder strict (bs ++ rest).length) (s.branchOf name p a) disc
        ⟨bs ++ rest, rest, bs.length⟩
    | none => (.error (.decode (.unknownDiscriminant name k disc.numberText 0)),
        ⟨bs ++ rest, rest, bs.length⟩)
  check : ∀ a ∈ p.arms, ∃ body, m.body? (.arm name a.attr) = some (.arm body) ∧
    ∀ e vs, vs.map (·.1) = (s.payload a).map (·.1) →
      (Pack.check m e (.arm name a.attr) body
        (.object (.arm name a.attr) (vs ++ [(p.discField, disc)])) disc = pure () ↔
          p.select? k = some a)

/-- The arms of a union are those of its definition. A number selects the arm that has it as a label,
or the default arm when no arm has, and no other; decoding and encoding both follow that. When arms
change places, the specification stays accepted, each number selects an arm with the same declaration,
and all values keep their bytes. -/
theorem union_selection {spec : Ast.Specification} {c : Config} {s : Schema} {m : Module}
    (h : Generates spec c s m) (hn : s.Unambiguous) {t : TypeInfo} {u : UnionType}
    (ht : t ∈ s.types) (hu : t.definition = .union u) :
    ∃ p, s.plan? t.name = some p ∧ p.disc = .scalar (s.canonical u.discriminant.toShape).base ∧
      p.arms.map ArmPlan.sense = u.senses ∧
      (∀ k a, p.select? k = some a ↔ a ∈ p.arms ∧ p.Admits a k) ∧
      (∀ k, ∀ a ∈ p.arms, ∀ b ∈ p.arms, p.Admits a k → p.Admits b k → a = b) ∧
      (∀ I R disc cells, FormLaid I R (s.formOf p.disc) disc cells →
        ∃ k, disc.wholeNumber? = some k ∧ m.Follows s t.name p disc cells k) ∧
      ∀ other, spec.Rearranged other → ∃ r, (analyze other).schema = some r ∧
        (∃ q, r.plan? t.name = some q ∧
          ∀ k, (p.select? k).map ArmPlan.sense = (q.select? k).map ArmPlan.sense) ∧
        ∀ config n, Module.load r config = .ok n → r.Unambiguous →
          ∀ i ∈ s.types, ∀ v, s.HasType (fun _ => True) (fun _ => True) i.name v → ∀ bytes,
            m.encode v = .ok bytes ↔ n.encode (v.recast (s.recast r)) = .ok bytes := by
  have hs := h.sound
  obtain ⟨lib, -, hm⟩ := h.faithful hn
  have hfind := hs.find?_name ht
  obtain ⟨p, hp⟩ : ∃ p, s.unionPlan? u = some p := by
    obtain ⟨body, hbody⟩ := hm.bodied t.name t hfind fun e he => by rw [hu] at he; cases he
    rw [hu] at hbody
    obtain ⟨p, hp, -⟩ := Option.map_eq_some_iff.1 hbody
    exact ⟨p, hp⟩
  have hplan : s.plan? t.name = some p := by rw [hs.plan?_eq ht hu, hp]
  obtain ⟨hsound, hnumeric⟩ := hs.plans _ _ hplan
  refine ⟨p, hplan, (Schema.unionPlan?_disc hp).1, Schema.unionPlan?_senses hp,
    fun k a => hsound.select?_iff_admits, fun k a ha b hb hka hkb => ?_, fun I R disc cells hdisc => ?_,
    fun other hother => ?_⟩
  · have hselect := hsound.select?_iff_admits.2 ⟨ha, hka⟩
    exact Option.some.inj (hselect.symm.trans (hsound.select?_iff_admits.2 ⟨hb, hkb⟩))
  · obtain ⟨k, hk⟩ := hnumeric.exists_number_of_laid hdisc
    refine ⟨k, hk, fun strict bs rest hbs => ?_, fun a ha => ?_⟩
    · exact hm.decodeRun_union hs h.sized hplan hdisc hk hbs rest
    · exact ⟨_, hm.armBody _ _ hplan a ha, fun e vs hvs => hm.check_eq_pure_iff hs hplan ha e hvs hk⟩
  · obtain ⟨r, hr, hsr⟩ := analyze_rearrange hother h.schema
    have hrs := (accepted_schema hr).1
    obtain ⟨q, hq, hpq⟩ := hsr.exists_plan hplan
    refine ⟨r, hr, ⟨q, hq, hpq.select?_sense hsound (hrs.plans _ _ hq).1⟩, ?_⟩
    intro config n hload hrn i hi v hv bytes
    obtain ⟨support', -, hn'⟩ := Generates.faithful ⟨hr, hload⟩ hrn
    have hi := hs.find?_name hi
    obtain ⟨j, hj⟩ : ∃ j, r.find? i.name = some j := by
      obtain ⟨hnone, -⟩ | ⟨_, j, -, hj, -⟩ := hsr.find?_cases i.name
      · cases hi.symm.trans hnone
      · exact ⟨j, hj⟩
    obtain ⟨htyped, hback⟩ := hsr.hasType hs hrs hv
    refine ⟨encode_rearrange hsr hs hrs hm hn' hi hj hv, fun hbytes => ?_⟩
    have hagain := encode_rearrange hsr.symm hrs hs hn' hm hj hi htyped hbytes
    rwa [hback] at hagain

namespace Fork

/-- A union with the given arms beside the default one, and a constant with the name of an arm. -/
def spec (arms : List Ast.UnionArm) : Ast.Specification :=
  ⟨none, [.const ⟨none, "case_1", .literal none 7 "7", none⟩,
    .union ⟨none, "fork", ⟨none, some "side", ⟨none, .builtin .int, .scalar, none⟩, none⟩, arms,
      some ⟨none, none, ⟨none, .builtin .void, .scalar, none⟩, none⟩, none⟩]⟩

def near : Ast.UnionArm :=
  ⟨none, [.literal none 1 "1"], ⟨none, some "near", ⟨none, .builtin .int, .scalar, none⟩, none⟩⟩

def far : Ast.UnionArm :=
  ⟨none, [.reference none "case_1"], ⟨none, some "far", ⟨none, .builtin .hyper, .scalar, none⟩, none⟩⟩

def schema (arms : List Ast.UnionArm) : Schema := (analyze (spec arms)).schema.getD ⟨[], []⟩

def loaded (arms : List Ast.UnionArm) : Module := (Module.load (schema arms) {}).toOption.getD {}

lemma generates {arms : List Ast.UnionArm} (hschema : (analyze (spec arms)).schema.isSome = true)
    (hload : (Module.load (schema arms) {}).isOk = true) :
    Generates (spec arms) {} (schema arms) (loaded arms) where
  schema := by
    obtain ⟨s, hs⟩ := Option.isSome_iff_exists.1 hschema
    rw [schema, hs, Option.getD_some]
  load := by
    rw [loaded]
    cases hmodule : Module.load (schema arms) {} with
    | ok m => rfl
    | error f =>
      rw [hmodule] at hload
      cases hload

def farValue (attr : String) : Value :=
  .object (.arm "fork" attr) [("far", .int 5), ("side", .int 7)]

end Fork

/-- The arm that comes first has the name, and the bytes are the same. -/
theorem union_selection_fork :
    (∃ p, (Fork.schema [Fork.near, Fork.far]).plan? "fork" = some p ∧
      (Fork.loaded [Fork.near, Fork.far]).Follows (Fork.schema [Fork.near, Fork.far]) "fork" p (.int 7)
        (.number 7) 7) ∧
    (Fork.loaded [Fork.near, Fork.far]).encode (Fork.farValue "case_1_") =
      .ok [0, 0, 0, 7, 0, 0, 0, 0, 0, 0, 0, 5] ∧
    (Fork.loaded [Fork.far, Fork.near]).encode (Fork.farValue "case_1") =
      .ok [0, 0, 0, 7, 0, 0, 0, 0, 0, 0, 0, 5] := by
  let s := Fork.schema [Fork.near, Fork.far]
  let fork : TypeInfo := (s.find? "fork").get (by decide +kernel)
  have hgen : Generates _ {} s (Fork.loaded [Fork.near, Fork.far]) :=
    Fork.generates (by decide +kernel) (by decide +kernel)
  have hfork : fork ∈ s.types := by decide +kernel
  have hdisc : FormLaid (fun _ _ _ => False) (fun _ _ => False) (.scalar .int) (.int 7) (.number 7) :=
    .scalar (.int (by norm_num [FitsSigned]))
  let u : UnionType := ⟨"fork", ⟨.scalar (.builtin .int), some "side"⟩,
    [⟨[⟨1, none⟩], ⟨.scalar (.builtin .int), some "near"⟩⟩,
     ⟨[⟨7, some "case_1"⟩], ⟨.scalar (.builtin .hyper), some "far"⟩⟩],
    some ⟨.scalar (.builtin .void), none⟩⟩
  have hu : fork.definition = .union u := by decide +kernel
  obtain ⟨p, hplan, hp, -, -, -, hfollows, -⟩ :=
    union_selection hgen (by decide +kernel) hfork hu
  have hname : fork.name = "fork" := by decide +kernel
  have hform : s.formOf p.disc = .scalar .int := by
    rw [hp]
    decide +kernel
  rw [hname] at hplan hfollows
  obtain ⟨k, hk, hfollows⟩ := hfollows _ _ (.int 7) (.number 7) (hform ▸ hdisc)
  cases hk
  exact ⟨⟨p, hplan, hfollows⟩, by decide +kernel, by decide +kernel⟩

end Xdr
