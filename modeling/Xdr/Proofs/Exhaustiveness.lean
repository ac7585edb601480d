import Xdr.Proofs.Schema.SizeEquations
import Xdr.Proofs.Selection
import Xdr.Proofs.Transparency

/-!
# Variants without an arm

The analysis warns of the variants of an enum that select no arm of a union, and takes a union for
exhaustive when whatever is decoded as its discriminant selects one.
-/

namespace Xdr

open Ast (Specification)
open Wire List

variable {u : UnionType} {e : EnumType} {d : Ast.UnionDef} {seen : List Int} {shape : Shape}

lemma mem_checkLabels_iff {bindings : Bindings} {union ty : String} {domain : Domain}
    {pairs : List (Ast.Value × Int)} (h : (checkLabels bindings union ty domain seen pairs).2 = [])
    (v : Int) :
    v ∈ (checkLabels bindings union ty domain seen pairs).1 ↔ v ∈ seen ∨ v ∈ pairs.map (·.2) := by
  induction pairs generalizing seen with
  | nil => simp [checkLabels]
  | cons pair rest ih =>
    obtain ⟨label, n⟩ := pair
    unfold checkLabels at h ⊢
    split at h
    · cases h
    · rename_i hadmits
      rw [if_neg hadmits]
      split at h
      · cases h
      · rename_i hseen
        rw [if_neg hseen, ih h, mem_cons, map_cons, mem_cons]
        tauto

lemma labelPairs_numbers {spec : Specification}
    (harms : List.Forall₂ (ResolvesArm spec) d.arms u.arms) :
    (labelPairs d u).map (·.2) = u.labels := by
  rw [labelPairs, UnionType.labels]
  generalize d.arms = written at harms ⊢
  generalize u.arms = arms at harms ⊢
  induction harms with
  | nil => rfl
  | cons har _ ih =>
    rw [zip_cons_cons, flatMap_cons, flatMap_cons, map_append, ih,
      map_snd_zip]
    rw [Arm.values, length_map, har.labels.length_eq]

/-- The variants of an enum that no label of a union has. -/
def UnionType.missing (u : UnionType) (e : EnumType) : List (String × Int) :=
  e.variants.filter fun v => v.2 ∉ u.labels

lemma unhandled_enum (hdefault : u.fallback = none) (h : ∀ v, v ∈ seen ↔ v ∈ u.labels) :
    unhandled (.enum e) u seen = (u.missing e).map (·.1) := by
  have hseen : ∀ v : Int, (!seen.contains v) = decide (v ∉ u.labels) := by
    intro v
    rw [Bool.eq_iff_iff, Bool.not_eq_true', ← Bool.not_eq_true, contains_iff_mem, h,
      decide_eq_true_eq]
  simp only [unhandled, hdefault, UnionType.missing, hseen]

namespace Elaborated

variable {spec : Specification} {defs : Definitions} (h : Elaborated spec defs)
  (hacyclic : defs.graph.Acyclic)

include h hacyclic

lemma unionFindings_eq (hres : Resolves spec (.union d) (.union u)) (hwf : spec.UnionWellFormed d)
    :
    ∃ domain seen, defs.domain? u.discriminant.toShape = some domain ∧
      (∀ v, v ∈ seen ↔ v ∈ u.labels) ∧ unionFindings spec.bindings defs d u =
        if (unhandled domain u seen).isEmpty then []
        else [⟨.unhandledVariants u.name (unhandled domain u seen), d.nameSpan⟩] := by
  have hclean := (h.unionFindings_clean_iff hacyclic hres).2 hwf
  cases hres with
  | union hname hdisc harms hfall =>
    obtain ⟨domain, hdomain⟩ := (h.selects_iff hacyclic hdisc).1 hwf.selects
    simp only [unionFindings, hdomain, anyError_append, Bool.or_eq_false_iff] at hclean ⊢
    obtain ⟨⟨hlabels, hnamesakes⟩, -⟩ := hclean
    have hlabels := Faults.eq_nil (@checkLabels_faults spec _ _ _ _ _ []) hlabels
    have hnamesakes := Faults.eq_nil (@namesakes_faults spec d u) hnamesakes
    refine ⟨domain, _, rfl, fun v => ?_, by rw [hlabels, hnamesakes, nil_append, nil_append]⟩
    rw [mem_checkLabels_iff hlabels, labelPairs_numbers harms]
    simp

omit hacyclic in
lemma mem_unionFindings_iff {f : Finding} :
    f ∈ defs.unionFindings spec.bindings spec ↔ ∃ d u, .union d ∈ spec.definitions ∧ .union u ∈ defs ∧
      Resolves spec (.union d) (.union u) ∧ f ∈ unionFindings spec.bindings defs d u := by
  constructor
  · intro hf
    obtain ⟨d, hd, hf⟩ := mem_flatMap.1 hf
    cases d with
    | union d =>
      obtain ⟨r, hr, hres⟩ := h.find?_resolved hd rfl
      cases hres with
      | @union _ u hname hdisc harms hfall =>
        rw [Ast.Definition.name] at hr
        simp only [hr] at hf
        exact ⟨d, u, hd, ((h.find?_iff _ _).1 hr).1, .union hname hdisc harms hfall, hf⟩
    | _ => cases hf
  · rintro ⟨d, u, hd, hu, hres, hf⟩
    refine mem_flatMap.2 ⟨.union d, hd, ?_⟩
    have hfind := (h.find?_iff d.name (.union u)).2 ⟨hu, hres.name_eq⟩
    simpa only [hfind] using hf

lemma warning_iff (hu : .union u ∈ defs) (henum : defs.enumOf? u.discriminant.toShape = some e)
    (hdefault : u.fallback = none) (hwf : ∀ d, .union d ∈ spec.definitions → spec.UnionWellFormed d)
    (names : List String) :
    (∃ f ∈ defs.unionFindings spec.bindings spec, f.problem = .unhandledVariants u.name names) ↔
      names ≠ [] ∧ names = (u.missing e).map (·.1) := by
  constructor
  · rintro ⟨f, hf, hproblem⟩
    obtain ⟨d, v, hd, hv, hres, hf⟩ := h.mem_unionFindings_iff.1 hf
    obtain ⟨domain, seen, hdomain, hseen, hfindings⟩ := h.unionFindings_eq hacyclic hres (hwf d hd)
    rw [hfindings] at hf
    split_ifs at hf with hempty
    · simp at hf
    · rw [mem_singleton.1 hf] at hproblem
      obtain ⟨hname, rfl⟩ := Problem.unhandledVariants.inj hproblem
      -- the union that is warned of is the one of that name
      have hfind := (h.find?_iff u.name (.union v)).2 ⟨hv, hname⟩
      cases hfind.symm.trans ((h.find?_iff u.name (.union u)).2 ⟨hu, rfl⟩)
      cases hdomain.symm.trans (Definitions.domain?_of_enumOf? henum)
      exact ⟨by simpa using hempty, unhandled_enum hdefault hseen⟩
  · rintro ⟨hne, rfl⟩
    obtain ⟨d, hd, -, hres⟩ := h.exists_written hu
    cases hres with
    | @union d _ hname hdisc harms hfall =>
      have hres : Resolves spec (.union d) (.union u) := .union hname hdisc harms hfall
      obtain ⟨domain, seen, hdomain, hseen, hfindings⟩ := h.unionFindings_eq hacyclic hres (hwf d hd)
      cases hdomain.symm.trans (Definitions.domain?_of_enumOf? henum)
      rw [unhandled_enum hdefault hseen, if_neg (by simpa using hne)] at hfindings
      refine ⟨⟨.unhandledVariants u.name ((u.missing e).map (·.1)), d.nameSpan⟩, ?_, rfl⟩
      refine h.mem_unionFindings_iff.2 ⟨d, u, hd, hu, hres, ?_⟩
      rw [hfindings]
      exact .head _

end Elaborated

lemma Schema.select?_eq_none_iff {s : Schema} {p : UnionPlan} (hp : s.unionPlan? u = some p)
    (k : Int) : p.select? k = none ↔ u.fallback = none ∧ k ∉ u.labels := by
  obtain ⟨arms, harms, hplan⟩ := Schema.unionPlan?_arms hp
  have hlabels : k ∈ u.labels ↔ ∃ x ∈ arms, k ∈ x.2.values := by
    rw [UnionType.labels, ← harms, flatMap_map, mem_flatMap]
  unfold UnionPlan.select?
  split
  · rename_i a hfind
    have hmem := mem_of_find?_eq_some hfind
    have hlabel := find?_some hfind
    simp only [Bool.and_eq_true, Bool.not_eq_true', contains_iff_mem] at hlabel
    rw [hplan, mem_append, mem_map, mem_map] at hmem
    refine iff_of_false (Option.some_ne_none _) fun hnone => ?_
    obtain ⟨x, hx, rfl⟩ | ⟨d, -, rfl⟩ := hmem
    · exact hnone.2 (hlabels.2 ⟨x, hx, hlabel.2⟩)
    · cases hlabel.1
  · rename_i hfind
    have hunlisted : k ∉ u.labels := by
      rw [hlabels]
      rintro ⟨x, hx, hk⟩
      refine find?_eq_none.1 hfind ⟨x.1, x.2.values, x.2.decl, false⟩ ?_ (by simpa using hk)
      rw [hplan]
      exact mem_append_left _ (mem_map_of_mem hx)
    rw [hplan, find?_eq_none]
    cases u.fallback with
    | none => simpa [hunlisted] using fun a name arm _ heq => heq ▸ rfl
    | some d => simp

/-- Faults that blame a discriminant tell that it was decoded, where its number is stored, and that the
union has no arm for it. -/
def Schema.refused (s : Schema) : Blame where
  strict := true
  enum _ := True
  union data name value start := ∃ p, s.plan? name = some p ∧ p.select? value = none ∧
    p.Stored data start value ∧ ∃ disc cells, disc.wholeNumber? = some value ∧
      FormLaid (fun _ _ _ => False) (fun _ _ => True) (s.formOf p.disc) disc cells

def numberOfEqual (stored : Nat × Bool) (b : UInt8) : Int :=
  if stored.2 then signed stored.1 (natOfBytes (List.replicate stored.1 b))
  else natOfBytes (List.replicate stored.1 b)

lemma StoredAt.eq_of_replicate {n width : Nat} {b : UInt8} {start value : Int} {sign : Bool}
    (h : StoredAt (List.replicate n b) start width sign value) :
    value = numberOfEqual (width, sign) b := by
  obtain ⟨bs, ⟨before, behind, hdata, -⟩, rfl, hvalue⟩ := h
  have hall : ∀ x ∈ bs, x = b := by
    intro x hx
    have hmem : x ∈ List.replicate n b := by
      rw [hdata]
      simp [hx]
    exact eq_of_mem_replicate hmem
  rw [hvalue, numberOfEqual, ← eq_replicate_of_mem hall]

lemma Base.numberOfEqual_stored_ne (base : Base) :
    numberOfEqual base.stored 0 ≠ numberOfEqual base.stored 1 := by
  have hdiffer : ∀ stored ∈ [(4, true), (4, false), (8, true), (8, false)],
      numberOfEqual stored 0 ≠ numberOfEqual stored 1 := by decide
  refine hdiffer _ ?_
  unfold Base.stored
  split <;> simp

lemma not_refused_at_end {s : Schema} {α : Type} {r : Read α} (hlocal : Local r)
    (hpoints : ∀ i, Pointing s.refused r i) (data : List UInt8) (name : String) (value : Int)
    (shown : String) (start : Int) (j : Input) :
    r ⟨data, [], data.length⟩ ≠ (.error (.decode (.unknownDiscriminant name value shown start)), j) := by
  intro hrun
  have hsame : ∀ b : UInt8, ∃ p, s.plan? name = some p ∧
      p.Stored (List.replicate data.length b) start value := by
    intro b
    obtain ⟨_, _, _, hshort, -⟩ | hany := hlocal.error (Int.natCast_nonneg _) hrun
    · cases hshort
    · obtain ⟨j', hrun'⟩ := hany (List.replicate data.length b) []
      have hstands : Input.Stands ⟨List.replicate data.length b, [], data.length⟩ :=
        ⟨List.replicate data.length b, by simp, by simp⟩
      obtain ⟨p, hp, -, hstored, -⟩ := (hpoints _ hstands _ _ hrun').2 _ rfl
      exact ⟨p, hp, hstored⟩
  obtain ⟨p, hp, hzero⟩ := hsame 0
  obtain ⟨q, hq, hone⟩ := hsame 1
  cases hp.symm.trans hq
  exact p.disc.base.numberOfEqual_stored_ne
    (hzero.eq_of_replicate.symm.trans hone.eq_of_replicate)

namespace Schema

variable {s : Schema}

lemma branchOf_quiet (name : String) (p : UnionPlan) (a : ArmPlan) :
    (s.branchOf name p a).Quiet := by
  refine ⟨fun label hlabel => ?_, Quiet.ok _⟩
  obtain ⟨n, -, rfl⟩ := mem_map.1 hlabel
  exact Quiet.ok _

lemma branchOf_fair (name : String) (p : UnionPlan) (a : ArmPlan) :
    ∀ form ∈ (s.branchOf name p a).payload, form.Fair s.refused := by
  intro form hform
  obtain ⟨_, -, rfl⟩ := Option.map_eq_some_iff.1 hform
  have hquiet : ∀ name, (s.meant name).Quiet := by
    intro name
    unfold meant
    split <;> trivial
  exact ⟨s.form_forward s.meant a.decl.toShape, s.form_quiet hquiet _,
    Form.names_of_forall (fun _ => trivial) _⟩

end Schema

namespace Generates

variable {spec : Specification} {c : Config} {s : Schema} {m : Module} (h : Generates spec c s m)
  {lib : Imports.Support} (hm : Faithful s lib m)

include h hm

lemma fair_refused (key : ClassKey) (body : Body) (hbody : m.body? key.reader = some body) :
    body.Fair m s.refused := by
  obtain ⟨hforms, hquiet, -⟩ := h.fair hm key body hbody
  refine ⟨fun form hform => ?_, hquiet, ?_⟩
  · obtain ⟨hforward, hquiet, -⟩ := hforms form hform
    exact ⟨hforward, hquiet, form.names_of_forall fun _ => trivial⟩
  obtain ⟨name, -, hname⟩ := h.tame.named key body hbody
  rw [hname] at hbody
  rcases hm.body_trichotomy name with ⟨fields, hfields⟩ | ⟨p, hp⟩ | hnone
  · rcases hm.body_cases hfields with ⟨decls, -, hrecord⟩ | ⟨chain, _, hchain, -⟩
    · cases hbody.symm.trans hrecord
      trivial
    · cases hbody.symm.trans hchain
      trivial
  · cases hbody.symm.trans (hm.body_union hp)
    intro d i v j hi hrun hselect hdefault
    obtain ⟨cells, k, hlaid, hk, hselected, hstored⟩ :=
      hm.unselected_of_read h.sound h.sized hp hi hrun hselect hdefault
    rw [hk]
    exact ⟨p, hp, hselected, hstored, v, cells, hk, hlaid⟩
  · cases hbody.symm.trans hnone

lemma refused_of_decodeType (hn : s.Unambiguous) {t : TypeInfo} (ht : t ∈ s.types) {strict : Bool}
    {data : List UInt8} {f : DecodeFault} (hf : m.decodeType t.name strict data = .error (.decode f)) :
    f.Points s.refused data := by
  by_cases hnot : ∀ e, t.definition ≠ .enum e
  · rw [h.decodeType_instance hn ht hnot] at hf
    exact m.points_of_fair rfl (h.fair_refused hm) hf
  · -- an enum reads its number only
    push Not at hnot
    obtain ⟨e, he⟩ := hnot
    have hpoints : Pointing s.refused (Read.enum ⟨e.name, e.variants, []⟩) (Input.ofBytes data) :=
      .enum trivial
    rw [h.decodeType_enum hn ht he] at hf
    obtain ⟨j, hrun⟩ := Read.run_of_found_error hf
    exact (hpoints (Input.stands_ofBytes data) _ _ hrun).2 f rfl

lemma build_not_refused (strict : Bool) (size : Nat) (name : String) (p : UnionPlan) (a : ArmPlan)
    (disc : Value) (data : List UInt8) (union : String) (value : Int) (shown : String) (start : Int)
    (j : Input) :
    Unpack.build m (m.decoder strict size) (s.branchOf name p a) disc ⟨data, [], data.length⟩ ≠
      (.error (.decode (.unknownDiscriminant union value shown start)), j) := by
  have hlocal : Local (Unpack.build m (m.decoder strict size) (s.branchOf name p a) disc) :=
    (Orderly.build (h.tame.orderly strict _) m
      (fun form hform => (s.branchOf_fair name p a form hform).forward) disc).toLocal
  refine not_refused_at_end (s := s) hlocal (fun i => ?_) data union value shown start j
  refine .build ⟨fun _ => rfl, fun key args => m.quiet_construct key args [], fun key i => ?_⟩ m
    (s.branchOf_fair name p a) (s.branchOf_quiet name p a) disc i
  exact m.pointing_unpack (fun _ => rfl) (h.fair_refused hm) _ key i

end Generates

namespace Schema

variable {s : Schema}

lemma enumOf?_eq_definitions (h : s.canonical shape = s.definitions.canonical shape) :
    s.enumOf? shape = s.definitions.enumOf? shape := by
  simp only [enumOf?, Definitions.enumOf?, h, definitions_find?]
  split
  · rename_i name _ _
    rcases s.find? name with _ | ⟨d, _, _, _, _⟩
    · rfl
    · cases d <;> rfl
  · rfl

lemma formOf_enum (h : s.enumOf? shape = some e) :
    s.formOf (.scalar (s.canonical shape).base) = .enum (.enum ⟨e.name, e.variants, []⟩) ∧
      ∃ t ∈ s.types, t.definition = .enum e := by
  unfold enumOf? at h
  simp only at h
  split at h
  · rename_i name _ hbase
    split at h
    · rename_i hfind
      cases h
      rw [hbase]
      exact ⟨formNamed_of_enum hfind rfl, _, (mem_of_find? hfind).1, rfl⟩
    · cases h
  · cases h

end Schema

/-- The data is refused for a discriminant that selects no arm. -/
def refusesDiscriminant : Except Fault (Value × List UInt8) → Bool
  | .error (.decode (.unknownDiscriminant ..)) => true
  | _ => false

lemma refusesDiscriminant_eq_true_iff {found : Except Fault (Value × List UInt8)} :
    refusesDiscriminant found = true ↔ ∃ union value shown start,
      found = .error (.decode (.unknownDiscriminant union value shown start)) := by
  constructor
  · intro h
    unfold refusesDiscriminant at h
    split at h
    · exact ⟨_, _, _, _, rfl⟩
    · cases h
  · rintro ⟨union, value, shown, start, rfl⟩
    rfl

lemma canonical_discriminant {spec : Specification} {s : Schema}
    (h : (analyze spec).schema = some s) (hu : .union u ∈ s.definitions) :
    s.canonical u.discriminant.toShape = s.definitions.canonical u.discriminant.toShape := by
  obtain ⟨-, order, hmade, horder, rfl⟩ := schema_of_analyze h
  rw [Definitions.schema_definitions] at hu ⊢
  exact hmade.union_canonical ((hmade.find?_iff _ _).2 ⟨hu, rfl⟩) horder

lemma analyze_warning_iff {spec : Specification} {s : Schema} (h : (analyze spec).schema = some s)
    (hu : .union u ∈ s.definitions) (henum : s.enumOf? u.discriminant.toShape = some e)
    (hdefault : u.fallback = none) (names : List String) :
    (∃ f ∈ (analyze spec).findings, f.problem = .unhandledVariants u.name names) ↔
      names ≠ [] ∧ names = (u.missing e).map (·.1) := by
  rw [Schema.enumOf?_eq_definitions (canonical_discriminant h hu)] at henum
  rw [findings_of_schema h]
  obtain ⟨hwf, order, hmade, -, rfl⟩ := schema_of_analyze h
  rw [Definitions.schema_definitions] at hu henum
  exact hmade.warning_iff (hmade.graph_acyclic_iff.2 hwf.acyclic) hu henum hdefault
    hwf.unions names

namespace Generates

variable {spec : Specification} {c : Config} {s : Schema} {m : Module} (h : Generates spec c s m)
  (hn : s.Unambiguous) {t : TypeInfo} (ht : t ∈ s.types) {u : UnionType}
  (hu : t.definition = .union u)

include h hn ht hu

lemma exists_plan : ∃ p, s.unionPlan? u = some p ∧ s.plan? t.name = some p := by
  obtain ⟨lib, -, hm⟩ := h.faithful hn
  obtain ⟨body, hbody⟩ := hm.bodied t.name t (h.sound.find?_name ht) fun e he => by
    rw [hu] at he
    cases he
  rw [hu] at hbody
  obtain ⟨p, hp, -⟩ := Option.map_eq_some_iff.1 hbody
  exact ⟨p, hp, (h.sound.plan?_eq ht hu).trans hp⟩

lemma decodeType_variant (henum : s.enumOf? u.discriminant.toShape = some e)
    (hdefault : u.fallback = none) {v : String × Int} (hv : v ∈ e.variants) (strict : Bool) :
    (v.2 ∉ u.labels → ∀ rest, m.decodeType t.name strict (signedBytes 4 v.2 ++ rest) =
      .error (.decode (.unknownDiscriminant t.name v.2 (toString v.2) 0))) ∧
    (v.2 ∈ u.labels →
      refusesDiscriminant (m.decodeType t.name strict (signedBytes 4 v.2)) = false) := by
  obtain ⟨lib, -, hm⟩ := h.faithful hn
  obtain ⟨p, hplan, hp⟩ := h.exists_plan hn ht hu
  obtain ⟨hform, i, hi, hdefinition⟩ := Schema.formOf_enum henum
  rw [← (Schema.unionPlan?_disc hplan).1] at hform
  have hnot : ∀ e, t.definition ≠ .enum e := fun e he => by rw [hu] at he; cases he
  have hfits : FitsSigned 4 v.2 := by
    have hbounds := accepted_enums_fit h.schema i hi e hdefinition v hv
    unfold FitsSigned
    norm_num
    omega
  have hlaid : FormLaid (fun _ _ _ => False) (fun _ _ => True) (s.formOf p.disc)
      (.member e.name v.1 v.2) (.number v.2) := by
    rw [hform]
    exact .enum (e := ⟨e.name, e.variants, []⟩) hv hfits
  have hrun : ∀ rest, m.decodeRun strict (.type t.name) (signedBytes 4 v.2 ++ rest) = _ := fun rest =>
    hm.decodeRun_union h.sound h.sized hp hlaid rfl (Cells.fits_ofBytes_iff.2 rfl) rest
  constructor
  · intro hmissing rest
    have hselect := (Schema.select?_eq_none_iff hplan v.2).2 ⟨hdefault, hmissing⟩
    rw [h.decodeType_instance hn ht hnot, Module.decodeInstance, hrun, hselect]
    rfl
  · intro hlabel
    obtain ⟨a, ha⟩ : ∃ a, p.select? v.2 = some a := by
      refine Option.ne_none_iff_exists'.1 fun hnone => ?_
      exact ((Schema.select?_eq_none_iff hplan v.2).1 hnone).2 hlabel
    have hbuild := hrun []
    rw [ha, append_nil] at hbuild
    rw [← Bool.not_eq_true, refusesDiscriminant_eq_true_iff, h.decodeType_instance hn ht hnot]
    rintro ⟨union, value, shown, start, hrefused⟩
    obtain ⟨j, hrefused⟩ := Read.run_of_found_error
      (r := fun size => m.unpack strict (m.levels size) (.type t.name)) hrefused
    exact h.build_not_refused hm strict _ t.name p a _ _ union value shown start j
      (hbuild.symm.trans hrefused)

lemma not_refused_of_exhaustive (hexhaustive : s.definitions.exhaustive u = true) {i : TypeInfo}
    (hi : i ∈ s.types) (strict : Bool) (data : List UInt8) (value : Int) (shown : String) (start : Int) :
    m.decodeType i.name strict data ≠
      .error (.decode (.unknownDiscriminant t.name value shown start)) := by
  intro hf
  obtain ⟨lib, -, hm⟩ := h.faithful hn
  obtain ⟨p, hplan, hp⟩ := h.exists_plan hn ht hu
  obtain ⟨q, hq, hselect, -, disc, cells, hvalue, hlaid⟩ := h.refused_of_decodeType hm hn hi hf
  cases hp.symm.trans hq
  obtain ⟨hdefault, hlabel⟩ := (Schema.select?_eq_none_iff hplan value).1 hselect
  have hmem : .union u ∈ s.definitions := mem_map.2 ⟨t, ht, hu⟩
  have hcanonical := canonical_discriminant h.schema hmem
  have hdisc := (Schema.unionPlan?_disc hplan).1
  rcases Definitions.exhaustive_iff.1 hexhaustive with
    hsome | ⟨e, henum, hall⟩ | ⟨-, hbool, hzero, hone⟩
  · rw [hdefault] at hsome
    cases hsome
  · rw [← Schema.enumOf?_eq_definitions hcanonical] at henum
    rw [hdisc, (Schema.formOf_enum henum).1] at hlaid
    cases hlaid with
    | enum hvariant hfits =>
      cases hvalue
      exact hlabel (hall _ hvariant)
  · rw [hdisc, hcanonical, hbool] at hlaid
    cases hlaid with
    | scalar hscalar =>
      cases hscalar with
      | bool b =>
        cases b with
        | false =>
          cases hvalue
          exact hlabel hzero
        | true =>
          cases hvalue
          exact hlabel hone

end Generates

/-- The analysis warns of a union with an enum for its discriminant and without a default arm exactly
when some variant has no arm, and lists those variants in the order of the enum. Under unambiguous names
they are those that decoding refuses for the discriminant, and a union that the analysis takes for
exhaustive is never blamed for one. -/
theorem warned_variants_refused {spec : Specification} {s : Schema} (h : (analyze spec).schema = some s)
    {t : TypeInfo} {u : UnionType} (ht : t ∈ s.types) (hu : t.definition = .union u) :
    (∀ e, s.enumOf? u.discriminant.toShape = some e → u.fallback = none →
      (∀ names, (∃ f ∈ (analyze spec).findings, f.problem = .unhandledVariants u.name names) ↔
        names ≠ [] ∧ names = (u.missing e).map (·.1)) ∧
      ∀ c m, Module.load s c = .ok m → s.Unambiguous → ∀ strict,
        (u.missing e = e.variants.filter fun v =>
          refusesDiscriminant (m.decodeType t.name strict (signedBytes 4 v.2))) ∧
        ∀ v ∈ u.missing e, ∀ rest, m.decodeType t.name strict (signedBytes 4 v.2 ++ rest) =
          .error (.decode (.unknownDiscriminant t.name v.2 (toString v.2) 0))) ∧
    (s.definitions.exhaustive u = true →
      ∀ c m, Module.load s c = .ok m → s.Unambiguous → ∀ i ∈ s.types, ∀ strict data value shown start,
        m.decodeType i.name strict data ≠
          .error (.decode (.unknownDiscriminant t.name value shown start))) := by
  have hmem : .union u ∈ s.definitions := mem_map.2 ⟨t, ht, hu⟩
  refine ⟨fun e henum hdefault => ⟨analyze_warning_iff h hmem henum hdefault, ?_⟩, ?_⟩
  · intro c m hload hn strict
    have hgen : Generates spec c s m := ⟨h, hload⟩
    have hvariant : ∀ v ∈ e.variants, _ := fun v hv =>
      hgen.decodeType_variant hn ht hu henum hdefault hv strict
    refine ⟨filter_congr fun v hv => ?_, fun v hv => ?_⟩
    · by_cases hlabel : v.2 ∈ u.labels
      · simp [hlabel, (hvariant v hv).2 hlabel]
      · have hrefused := (hvariant v hv).1 hlabel []
        rw [append_nil] at hrefused
        simp [hlabel, hrefused, refusesDiscriminant]
    · obtain ⟨hv, hmissing⟩ := mem_filter.1 hv
      exact (hvariant v hv).1 (of_decide_eq_true hmissing)
  · intro hexhaustive c m hload hn i hi
    exact Generates.not_refused_of_exhaustive ⟨h, hload⟩ hn ht hu hexhaustive hi

namespace Lamps

/-- A lamp that handles one of two states, and a plug that handles both truth values. -/
def spec : Specification :=
  let decl name base arity size : Ast.Declaration := ⟨none, name, ⟨none, base, arity, size⟩, none⟩
  let number n : Ast.Value := .literal none n (toString n)
  ⟨none, [
    .union ⟨none, "lamp", decl "state" (.named "setting") .scalar none,
      [⟨none, [.reference none "ON"], decl "plug" (.named "plug") .optional none⟩], none, none⟩,
    .union ⟨none, "plug", decl "live" (.builtin .bool) .scalar none,
      [⟨none, [.reference none "TRUE"], decl "lamps" (.named "lamp") .varying none⟩,
       ⟨none, [.reference none "FALSE"], decl none (.builtin .void) .scalar none⟩], none, none⟩,
    .typedef ⟨none, "setting", decl "setting" (.named "position") .scalar none, none⟩,
    .enum ⟨none, "position", [⟨none, "OFF", number 0, none⟩, ⟨none, "ON", number 1, none⟩], none⟩]⟩

def schema : Schema := (analyze spec).schema.getD ⟨[], []⟩

def loaded : Module := (Module.load schema {}).toOption.getD {}

lemma generates : Generates spec {} schema loaded where
  schema := by decide +kernel
  load := Module.load_eq_getD (by decide +kernel)

end Lamps

/-- The analysis warns of a lamp that is off, decoding refuses it, and no plug is refused. -/
theorem warned_variants_refused_lamp :
    (∃ f ∈ (analyze Lamps.spec).findings, f.problem = .unhandledVariants "lamp" ["OFF"]) ∧
    (∀ strict rest, Lamps.loaded.decodeType "lamp" strict ([0, 0, 0, 0] ++ rest) =
      .error (.decode (.unknownDiscriminant "lamp" 0 "0" 0))) ∧
    ∀ strict data value shown start, Lamps.loaded.decodeType "lamp" strict data ≠
      .error (.decode (.unknownDiscriminant "plug" value shown start)) := by
  have hnames : Lamps.schema.Unambiguous := by decide +kernel
  let lamp : TypeInfo := (Lamps.schema.find? "lamp").get (by decide +kernel)
  let plug : TypeInfo := (Lamps.schema.find? "plug").get (by decide +kernel)
  have hlamp : lamp ∈ Lamps.schema.types := by decide +kernel
  have hplug : plug ∈ Lamps.schema.types := by decide +kernel
  let on : UnionType := ⟨"lamp", ⟨.scalar (.named "setting"), some "state"⟩,
    [⟨[⟨1, some "ON"⟩], ⟨⟨.named "plug", .optional, none⟩, some "plug"⟩⟩], none⟩
  let live : UnionType := ⟨"plug", ⟨.scalar (.builtin .bool), some "live"⟩,
    [⟨[⟨1, some "TRUE"⟩], ⟨⟨.named "lamp", .varying, none⟩, some "lamps"⟩⟩,
     ⟨[⟨0, some "FALSE"⟩], ⟨.scalar (.builtin .void), none⟩⟩], none⟩
  have hon : lamp.definition = .union on := by decide +kernel
  have hlive : plug.definition = .union live := by decide +kernel
  have henum : Lamps.schema.enumOf? on.discriminant.toShape =
      some ⟨"position", [("OFF", 0), ("ON", 1)]⟩ := by decide +kernel
  have hexhaustive : Lamps.schema.definitions.exhaustive live = true := by decide +kernel
  obtain ⟨hlamps, -⟩ := warned_variants_refused Lamps.generates.schema hlamp hon
  obtain ⟨-, hplugs⟩ := warned_variants_refused Lamps.generates.schema hplug hlive
  obtain ⟨hwarned, hrefused⟩ := hlamps _ henum rfl
  refine ⟨(hwarned ["OFF"]).2 ⟨by simp, by decide⟩, fun strict rest => ?_, fun strict => ?_⟩
  · obtain ⟨-, hoff⟩ := hrefused {} _ Lamps.generates.load hnames strict
    exact hoff ("OFF", 0) (by decide) rest
  · exact hplugs hexhaustive {} _ Lamps.generates.load hnames lamp hlamp strict

end Xdr
