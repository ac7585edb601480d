import Xdr.Proofs.Analysis.Acceptance
import Xdr.Proofs.Analysis.Canonical
import Xdr.Proofs.Schema.Sound

/-!
# Schemas of accepted specifications

The schema of an accepted specification has all that the codec relies on.
-/

namespace Xdr

open List Schema Definitions

open Ast (Specification)

variable {s : Schema} {u : UnionType} {p : UnionPlan} {spec : Specification} {other : String}
  {shape : Shape} {e : EnumType}

namespace Definitions

variable (defs : Definitions) (constants : List (String × Int)) (order : List String)

def info (d : Definition) : TypeInfo :=
  { definition := d
    canonical := (defs.canonicals.lookup d.name).getD (.scalar (.named d.name))
    size := (defs.sizes order).of d.name
    holdsOpaque := (defs.opaqueTypes defs.graph).contains d.name
    dependencies := defs.graph.dependencies d.name true }

lemma schema_types : (defs.schema constants defs.graph order).types = defs.map (defs.info order) :=
  rfl

lemma schema_definitions : (defs.schema constants defs.graph order).definitions = defs := by
  rw [Schema.definitions, schema_types, map_map]
  exact map_id defs

lemma schema_find? (name : String) :
    (defs.schema constants defs.graph order).find? name =
      (defs.find? name).map (defs.info order) := by
  rw [Schema.find?, schema_types, find?_map]
  rfl

variable {defs constants order}

lemma schema_find?_eq_some_iff {name : String} {t : TypeInfo} :
    (defs.schema constants defs.graph order).find? name = some t ↔
      ∃ d, defs.find? name = some d ∧ defs.info order d = t := by
  rw [schema_find?, Option.map_eq_some_iff]

end Definitions

lemma mem_sortNumbers {n : Int} {ns : List Int} : n ∈ sortNumbers ns ↔ n ∈ ns := by
  rw [sortNumbers, mem_eraseDups, mem_mergeSort]

lemma length_variantNames (enum : Option EnumType) (hasDefault : Bool) (labels : List Label) :
    (Naming.variantNames enum hasDefault labels).length = labels.length := by
  have hfrom : ∀ taken, (Naming.variantNamesFrom enum taken labels).length = labels.length := by
    induction labels with
    | nil => exact fun _ => rfl
    | cons label rest ih => exact fun taken => congrArg Nat.succ (ih _)
  exact hfrom _

lemma exists_mapM {α β : Type} {m : Type → Type} [Monad m] [LawfulMonad m] {f : α → m β}
    {xs : List α} (h : ∀ x ∈ xs, ∃ y, f x = pure y) : ∃ ys, xs.mapM f = pure ys := by
  induction xs with
  | nil => exact ⟨[], mapM_nil⟩
  | cons x xs ih =>
    obtain ⟨y, hy⟩ := h x (.head _)
    obtain ⟨ys, hys⟩ := ih fun z hz => h z (mem_cons_of_mem x hz)
    exact ⟨y :: ys, by rw [mapM_cons, hy, hys, pure_bind, pure_bind]⟩

lemma Schema.exists_unionPlan (h : ∀ a ∈ u.arms, a.labels ≠ []) :
    ∃ p, s.unionPlan? u = some p := by
  have hfirst : ∀ a ∈ u.arms, ∃ l, a.labels.head? = some l := fun a ha =>
    ⟨_, head?_eq_some_head (h a ha)⟩
  obtain ⟨firsts, hfirsts⟩ := exists_mapM hfirst
  exact ⟨_, by rw [Schema.unionPlan?, hfirsts]; rfl⟩

lemma Schema.labels_ne_nil (hp : s.unionPlan? u = some p) : ∀ a ∈ u.arms, a.labels ≠ [] := by
  intro a ha hnil
  obtain ⟨firsts, hfirsts, -⟩ := Option.bind_eq_some_iff.1 hp
  obtain ⟨first, -, hfirst⟩ := exists_of_forall₂_left (mapM_eq_some_iff.1 hfirsts) ha
  rw [hnil] at hfirst
  cases hfirst

lemma Schema.unionPlan?_arms (hp : s.unionPlan? u = some p) :
    ∃ arms : List (String × Arm), arms.map (·.2) = u.arms ∧
      p.arms = arms.map (fun x => ⟨x.1, x.2.values, x.2.decl, false⟩) ++
        u.fallback.toList.map fun d => ⟨Naming.defaultVariant, [], d, true⟩ := by
  obtain ⟨firsts, hfirsts, hplan⟩ := Option.bind_eq_some_iff.1 hp
  cases hplan
  refine ⟨_, map_snd_zip ?_, rfl⟩
  rw [length_variantNames, (mapM_eq_some_iff.1 hfirsts).length_eq]

lemma Schema.unionPlan?_declarations (hp : s.unionPlan? u = some p) :
    p.arms.map (·.decl) = u.declarations := by
  obtain ⟨arms, harms, hplan⟩ := unionPlan?_arms hp
  simp [hplan, UnionType.declarations, ← harms, Function.comp_def]

lemma Schema.decl_mem_of_arm (hp : s.unionPlan? u = some p) {a : ArmPlan} (ha : a ∈ p.arms) :
    a.decl ∈ u.declarations := by
  rw [← unionPlan?_declarations hp]
  exact mem_map_of_mem ha

lemma Schema.unionPlan?_disc (hp : s.unionPlan? u = some p) :
    p.disc = .scalar (s.canonical u.discriminant.toShape).base ∧
      p.discSize = (s.sizeOf p.disc).bytes?.getD 0 := by
  obtain ⟨firsts, -, hplan⟩ := Option.bind_eq_some_iff.1 hp
  cases hplan
  exact ⟨rfl, rfl⟩

lemma Schema.unionPlan?_sound (hp : s.unionPlan? u = some p) (hlabels : u.labels.Nodup)
    (htruths : p.disc.base = .builtin .bool → ∀ n ∈ u.labels, n = 0 ∨ n = 1) : p.Sound := by
  obtain ⟨arms, harms, hplan⟩ := unionPlan?_arms hp
  have hexplicit : p.explicit = sortNumbers u.labels := by
    obtain ⟨firsts, -, hp⟩ := Option.bind_eq_some_iff.1 hp
    cases hp
    rfl
  have hmem : ∀ n, n ∈ u.labels ↔ ∃ x ∈ arms, n ∈ x.2.values := by
    intro n
    rw [UnionType.labels, ← harms, flatMap_map, mem_flatMap]
  have hcases : ∀ a ∈ p.arms, (∃ x ∈ arms, a = ⟨x.1, x.2.values, x.2.decl, false⟩) ∨
      ∃ d ∈ u.fallback, a = ⟨Naming.defaultVariant, [], d, true⟩ := by
    intro a ha
    rw [hplan, mem_append, mem_map, mem_map] at ha
    obtain ⟨x, hx, rfl⟩ | ⟨d, hd, rfl⟩ := ha
    · exact .inl ⟨x, hx, rfl⟩
    · exact .inr ⟨d, by simpa using hd, rfl⟩
  have hdisjoint : arms.Pairwise fun x y => x.2.values.Disjoint y.2.values := by
    have hpairwise := (nodup_flatMap.1 hlabels).2
    rwa [← harms, pairwise_map] at hpairwise
  refine ⟨fun n => ?_, fun a ha b hb n hna hnb => ?_, fun a ha b hb hda hdb => ?_,
    fun hbool a ha n hn => ?_⟩
  · rw [hexplicit, mem_sortNumbers, hmem]
    constructor
    · rintro ⟨x, hx, hn⟩
      refine ⟨⟨x.1, x.2.values, x.2.decl, false⟩, ?_, rfl, hn⟩
      rw [hplan]
      exact mem_append_left _ (mem_map_of_mem hx)
    · rintro ⟨a, ha, hdefault, hn⟩
      obtain ⟨x, hx, rfl⟩ | ⟨d, -, rfl⟩ := hcases a ha
      · exact ⟨x, hx, hn⟩
      · cases hdefault
  · obtain ⟨x, hx, rfl⟩ | ⟨d, -, rfl⟩ := hcases a ha
    · obtain ⟨y, hy, rfl⟩ | ⟨d, -, rfl⟩ := hcases b hb
      · by_cases hxy : x = y
        · rw [hxy]
        · have hsymm : Std.Symm fun x y : String × Arm => x.2.values.Disjoint y.2.values :=
            ⟨fun _ _ hd => hd.symm⟩
          exact absurd hnb (hdisjoint.forall hx hy hxy hna)
      · cases hnb
    · cases hna
  · obtain ⟨x, hx, rfl⟩ | ⟨d, hd, rfl⟩ := hcases a ha
    · cases hda
    · obtain ⟨y, hy, rfl⟩ | ⟨e, he, rfl⟩ := hcases b hb
      · cases hdb
      · rw [Option.mem_unique hd he]
  · obtain ⟨x, hx, rfl⟩ | ⟨d, -, rfl⟩ := hcases a ha
    · exact htruths hbool n ((hmem n).2 ⟨x, hx, hn⟩)
    · cases hn

namespace Schema

variable {s : Schema}

lemma held_elementForm {base : Base} (h : (s.elementForm s.meant base).held = some (.type other)) :
    base = .named other := by
  cases base with
  | builtin b => cases h
  | named name =>
    change (s.formNamed name).held = _ at h
    by_cases henum : ∃ t e, s.find? name = some t ∧ t.definition = .enum e
    · obtain ⟨t, e, ht, he⟩ := henum
      rw [formNamed_of_enum ht he] at h
      cases h
    · rw [formNamed_of_not_enum fun t ht e he => henum ⟨t, e, ht, he⟩] at h
      cases h
      rfl

lemma held_formOf (h : (s.formOf shape).held = some (.type other)) :
    shape.base = .named other ∧ shape.arity ≠ .optional := by
  have hview := formOf_view s shape
  generalize s.formOf shape = form at hview h
  cases hview with
  | scalar | fixed => exact ⟨held_elementForm h, by simp⟩
  | _ => cases h

end Schema

lemma Resolves.plainMembers {d : Ast.Definition} {r : Definition} (h : Resolves spec d r) :
    List.Forall₂ (ResolvesDecl spec) d.plainDeclarations r.plainMembers := by
  cases h with
  | enum => exact .nil
  | struct _ hfields => exact hfields
  | typedef _ hdecl => exact .cons hdecl .nil
  | union _ hdisc _ _ => exact .cons hdisc .nil

namespace Elaborated

variable {spec : Specification} {defs : Definitions} {constants : List (String × Int)}
  {order : List String} (h : Elaborated spec defs) (horder : TypeOrder defs order)

include h

lemma schema_names :
    ((defs.schema constants defs.graph order).types.map (·.name)).Nodup := by
  rw [schema_types, map_map]
  exact h.defs_names_nodup

lemma enum_values_nodup (hwf : spec.WellFormed) (he : .enum e ∈ defs) :
    (e.variants.map (·.2)).Nodup := by
  obtain ⟨d, hd, -, hres⟩ := h.exists_written he
  cases hres with
  | @enum d _ hname hvariants =>
    have hdiffer := hwf.enums d hd
    rw [← pairwise_map (f := Ast.EnumVariant.value)] at hdiffer
    refine (pairwise_differ_iff h.names ?_).1 hdiffer
    rw [forall₂_map_left_iff, forall₂_map_right_iff]
    exact hvariants.imp fun _ _ hxv => hxv.2.1

lemma enum_values_fit (he : .enum e ∈ defs) :
    ∀ v ∈ e.variants, -(2 ^ 31) ≤ v.2 ∧ v.2 ≤ 2 ^ 31 - 1 := by
  intro v hv
  obtain ⟨d, -, -, hres⟩ := h.exists_written he
  cases hres with
  | enum hname hvariants =>
    obtain ⟨x, -, -, -, hfits⟩ := exists_of_forall₂_right hvariants hv
    exact hfits

lemma schema_size (horder : TypeOrder defs order) (name : String) :
    (((defs.schema constants defs.graph order).find? name).map (·.size)).getD .varying =
      (defs.sizes order).of name := by
  rw [schema_find?]
  cases hfind : defs.find? name with
  | none => exact (horder.sizes_of_undefined hfind).symm
  | some d =>
    have hname : d.name = name := ((h.find?_iff name d).1 hfind).2
    simp [Definitions.info, hname]

lemma schema_sizeOf (horder : TypeOrder defs order) (shape : Shape) :
    (defs.schema constants defs.graph order).sizeOf shape =
      shape.sizeWith (defs.sizes order).of :=
  congrArg (Shape.sizeWith · shape) (funext (h.schema_size horder))

lemma schema_canonical (horder : TypeOrder defs order) (shape : Shape)
    (hdefined : ∀ name, shape.base = .named name → ∃ r, defs.find? name = some r) :
    (defs.schema constants defs.graph order).canonical shape = defs.canonical shape := by
  obtain ⟨base, arity, length⟩ := shape
  by_cases harity : arity = .scalar
  · subst harity
    cases base with
    | builtin b => rfl
    | named name =>
      obtain ⟨r, hr⟩ := hdefined name rfl
      obtain ⟨hmem, rfl⟩ := (h.find?_iff name r).1 hr
      simp only [Schema.canonical, schema_find?, hr, Option.map_some, Option.getD_some,
        Definitions.info, horder.lookup_canonicals hmem]
      rfl
  · have hschema : (defs.schema constants defs.graph order).canonical ⟨base, arity, length⟩ =
        ⟨base, arity, length⟩ := by
      cases arity with
      | scalar => exact absurd rfl harity
      | _ => rfl
    have hdefs : defs.canonical ⟨base, arity, length⟩ = ⟨base, arity, length⟩ := by
      cases arity with
      | scalar => exact absurd rfl harity
      | _ => rfl
    rw [hschema, hdefs]

omit h in
lemma domain?_cases {domain : Domain} (hdomain : defs.domain? shape = some domain) :
    (defs.canonical shape).arity = .scalar ∧
      ((∃ name e, (defs.canonical shape).base = .named name ∧ defs.find? name = some (.enum e)) ∨
        ∃ b low high, (defs.canonical shape).base = .builtin b ∧ b.range? = some (low, high)) := by
  unfold Definitions.domain? at hdomain
  split at hdomain
  · rename_i e henum
    unfold Definitions.enumOf? at henum
    simp only at henum
    split at henum
    · rename_i name harity hbase
      split at henum
      · rename_i hfind
        exact ⟨harity, .inl ⟨name, _, hbase, hfind⟩⟩
      · cases henum
    · cases henum
  · simp only at hdomain
    split at hdomain
    · rename_i b harity hbase
      obtain ⟨⟨low, high⟩, hrange, -⟩ := Option.map_eq_some_iff.1 hdomain
      exact ⟨harity, .inr ⟨b, low, high, hbase, hrange⟩⟩
    · cases hdomain

omit h in
lemma plan?_eq_some_iff {name : String} :
    (defs.schema constants defs.graph order).plan? name = some p ↔
      ∃ u, defs.find? name = some (.union u) ∧
        (defs.schema constants defs.graph order).unionPlan? u = some p := by
  unfold Schema.plan?
  rw [schema_find?]
  cases hfind : defs.find? name with
  | none => simp
  | some d => cases d <;> simp [Definitions.info]

section

variable (hwf : spec.WellFormed) {name : String} {u : UnionType}
  (hu : defs.find? name = some (.union u))

include hwf hu

lemma union_labels_nodup : u.labels.Nodup := by
  obtain ⟨d, hd, -, hres⟩ := h.find?_written hu
  cases hres with
  | union hname hdisc harms hfall =>
    exact (pairwise_differ_iff h.names (labels_denote harms)).1 (hwf.unions _ hd).distinct

lemma union_discriminant :
    (defs.canonical u.discriminant.toShape).arity = .scalar ∧
      ((∃ name e, (defs.canonical u.discriminant.toShape).base = .named name ∧
        defs.find? name = some (.enum e)) ∨
      ∃ b low high, (defs.canonical u.discriminant.toShape).base = .builtin b ∧
        b.range? = some (low, high)) := by
  obtain ⟨d, hd, -, hres⟩ := h.find?_written hu
  have hacyclic := h.graph_acyclic_iff.2 hwf.acyclic
  cases hres with
  | union hname hdisc harms hfall =>
    obtain ⟨domain, hdomain⟩ := (h.selects_iff hacyclic hdisc).1 (hwf.unions _ hd).selects
    exact domain?_cases hdomain

lemma union_truths (hbool : (defs.canonical u.discriminant.toShape).base = .builtin .bool) :
    ∀ n ∈ u.labels, n = 0 ∨ n = 1 := by
  have hscalar := (h.union_discriminant hwf hu).1
  obtain ⟨d, hd, -, hres⟩ := h.find?_written hu
  have hacyclic := h.graph_acyclic_iff.2 hwf.acyclic
  cases hres with
  | union hname hdisc harms hfall =>
    have hcanon := h.canonical_canonical hacyclic u.discriminant.toShape
    rw [hbool, hscalar, ← hdisc.base, hdisc.arity] at hcanon
    intro n hn
    obtain ⟨x, hx, hxn⟩ := exists_of_forall₂_right (labels_denote harms) hn
    obtain ⟨v, hv, hin, -⟩ := (hwf.unions _ hd).labels x hx
    have hrange := hin .bool 0 1 hcanon rfl
    rw [hxn.unique h.names hv]
    omega

omit hwf in
lemma union_canonical (horder : TypeOrder defs order) :
    (defs.schema constants defs.graph order).canonical u.discriminant.toShape =
      defs.canonical u.discriminant.toShape := by
  refine h.schema_canonical horder _ fun name hbase => ?_
  refine h.exists_defined ((h.find?_iff _ _).1 hu).1 ?_ hbase
  exact .head _

end

lemma schema_sound (hwf : spec.WellFormed) (horder : TypeOrder defs order) :
    (defs.schema constants defs.graph order).Sound := by
  refine ⟨h.schema_names, fun t ht e he => ?_, fun name p hp => ?_⟩
  · rw [schema_types] at ht
    obtain ⟨d, hd, rfl⟩ := mem_map.1 ht
    exact h.enum_values_nodup hwf (he ▸ hd)
  · obtain ⟨u, hu, hplan⟩ := plan?_eq_some_iff.1 hp
    have hcanon : (defs.schema constants defs.graph order).canonical u.discriminant.toShape = _ :=
      h.union_canonical hu horder
    have hdisc : p.disc = .scalar (defs.canonical u.discriminant.toShape).base := by
      rw [(unionPlan?_disc hplan).1, hcanon]
    refine ⟨unionPlan?_sound hplan (h.union_labels_nodup hwf hu) fun hbool => ?_, ?_⟩
    · rw [hdisc] at hbool
      exact h.union_truths hwf hu hbool
    · rw [hdisc]
      obtain ⟨-, ⟨other, e, hbase, hfind⟩ | ⟨b, low, high, hbase, hrange⟩⟩ :=
        h.union_discriminant hwf hu
      · rw [hbase]
        exact .enum (schema_find?_eq_some_iff.2 ⟨_, hfind, rfl⟩) rfl
      · rw [hbase]
        exact .builtin hrange

lemma schema_closed : (defs.schema constants defs.graph order).Closed := by
  have hwritten : ∀ {d : Definition} {m : Decl}, d ∈ defs → m ∈ d.members →
      spec.Mentionable true m.base.written := by
    intro d m hd hm
    obtain ⟨a, ha, -, hres⟩ := h.exists_written hd
    obtain ⟨w, hw, hwm⟩ := exists_of_forall₂_right hres.members hm
    exact hwm.base ▸ h.mentionable ha hw
  refine ⟨fun t ht m hm name hbase => ?_, fun t ht m hm hbase => ?_, fun t ht m hm hbase => ?_⟩ <;>
    obtain ⟨d, hd, rfl⟩ := mem_map.1 (schema_types defs constants order ▸ ht)
  · obtain ⟨r, hr⟩ := h.exists_defined hd hm hbase
    exact ⟨_, schema_find?_eq_some_iff.2 ⟨r, hr, rfl⟩⟩
  · have hmention := hwritten hd hm
    rw [hbase] at hmention
    exact hmention.1 rfl
  · obtain ⟨a, ha, -, hres⟩ := h.exists_written hd
    obtain ⟨w, hw, hwm⟩ := exists_of_forall₂_right hres.plainMembers hm
    have hmention := (h.plain a ha w hw).1
    rw [hwm.base, hbase] at hmention
    cases hmention.2 rfl

end Elaborated

lemma Size.eq_of_common? {sizes : List Size} {size : Size} (hcommon : Size.common? sizes = some size) :
    ∀ x ∈ sizes, x = size := by
  unfold Size.common? at hcommon
  split at hcommon
  · cases hcommon
  · rename_i first rest
    split_ifs at hcommon with hall
    cases hcommon
    simpa using hall

namespace TypeOrder

variable {defs : Definitions} {constants : List (String × Int)} {order : List String}

lemma holds_of_held {name : String} {d : Definition} (hd : defs.find? name = some d) {m : Decl}
    (hm : m ∈ d.members)
    (hheld : ((defs.schema constants defs.graph order).formOf m.toShape).held = some (.type other)) :
    defs.graph.Holds name other := by
  obtain ⟨hbase, harity⟩ := held_formOf hheld
  have hname : d.name = name := by simpa using find?_some hd
  exact (defs.graph_spec.2.2 name other).2
    ⟨d, mem_of_find?_eq_some hd, hname, m, hm, hbase, harity⟩

lemma schema_ranked (horder : TypeOrder defs order) :
    (defs.schema constants defs.graph order).Ranked order.idxOf := by
  have hrank := horder.ranking
  refine ⟨fun name => ?_, fun name fields hfields f hf other hheld => ?_,
    fun name p hp a ha f hf other hheld => ?_⟩
  · rw [schema_types, length_map]
    exact hrank.bounded name
  · refine hrank.decreases name other ?_
    unfold Schema.fields? at hfields
    rw [schema_find?] at hfields
    cases hfind : defs.find? name with
    | none => simp [hfind] at hfields
    | some d =>
      cases d with
      | enum e | union u => simp [hfind, Definitions.info] at hfields
      | struct d =>
        simp only [hfind, Definitions.info, Option.map_some, Option.some.injEq] at hfields
        subst hfields
        obtain ⟨g, hg, rfl⟩ := mem_map.1 hf
        obtain ⟨m, hm, rfl⟩ := mem_map.1 hg
        exact holds_of_held hfind hm hheld
      | typedef d =>
        simp only [hfind, Definitions.info, Option.map_some, Option.some.injEq] at hfields
        subst hfields
        obtain rfl := mem_singleton.1 hf
        exact holds_of_held hfind (.head _) hheld
  · refine hrank.decreases name other ?_
    obtain ⟨u, hu, hplan⟩ := Elaborated.plan?_eq_some_iff.1 hp
    obtain ⟨field, -, rfl⟩ := mem_map.1 hf
    exact holds_of_held hu (mem_cons_of_mem _ (decl_mem_of_arm hplan ha)) hheld

lemma sizeWith_follow (horder : TypeOrder defs order) (n : Nat) (shape : Shape) :
    (defs.follow n shape).sizeWith (defs.sizes order).of = shape.sizeWith (defs.sizes order).of := by
  induction n generalizing shape with
  | zero => rfl
  | succ n ih =>
    obtain ⟨base, arity, length⟩ := shape
    unfold Definitions.follow
    split
    · rename_i name harity hbase
      cases harity
      cases hbase
      split
      · rename_i d hfind
        have hname : Shape.sizeWith (defs.sizes order).of ⟨.named name, .scalar, length⟩ =
            (defs.sizes order).of name := by simp [Shape.sizeWith_eq, Base.isBytes]
        rw [ih, hname, horder.sizes_of hfind]
        rfl
      · rfl
    · rfl

end TypeOrder

lemma Elaborated.schema_sized {defs : Definitions} {constants : List (String × Int)}
    {order : List String} (h : Elaborated spec defs) (hwf : spec.WellFormed)
    (horder : TypeOrder defs order) : (defs.schema constants defs.graph order).Sized := by
  have hsizeOf : ∀ shape, (defs.schema constants defs.graph order).sizeOf shape = _ :=
    h.schema_sizeOf horder
  have hsize : ∀ {name t}, (defs.schema constants defs.graph order).find? name = some t →
      t.size = defs.sizeOf (defs.sizes order).of t.definition := by
    intro name t ht
    obtain ⟨d, hd, rfl⟩ := schema_find?_eq_some_iff.1 ht
    have hname : d.name = name := ((h.find?_iff name d).1 hd).2
    rw [Definitions.info, hname]
    exact horder.sizes_of hd
  have henum : ∀ name t e, (defs.schema constants defs.graph order).find? name = some t →
      t.definition = .enum e → t.size = .fixed 4 := by
    intro name t e ht he
    rw [hsize ht, he]
    rfl
  have hdiscSize : ∀ name p, (defs.schema constants defs.graph order).plan? name = some p →
      (defs.schema constants defs.graph order).sizeOf p.disc = .fixed p.discSize := by
    intro name p hp
    obtain ⟨u, hu, hplan⟩ := plan?_eq_some_iff.1 hp
    have hnumeric := ((h.schema_sound hwf horder).plans name p hp).2
    rw [(unionPlan?_disc hplan).2, hnumeric.size_eq henum]
    rfl
  refine ⟨henum, fun name t d ht hd => ?_, fun name t d ht hd => ?_,
    hdiscSize, fun name t p n ht hp hn a ha => ?_⟩
  · rw [hsize ht, hd]
    simp only [hsizeOf]
    rfl
  · rw [hsize ht, hd, hsizeOf]
    rfl
  · obtain ⟨u, hu, hplan⟩ := plan?_eq_some_iff.1 hp
    -- the discriminant as written has the size of the canonical one
    have hdisc : u.discriminant.sizeWith (defs.sizes order).of = .fixed p.discSize := by
      have hscalar := (h.union_discriminant hwf hu).1
      have hcanon : (defs.schema constants defs.graph order).canonical u.discriminant.toShape = _ :=
        h.union_canonical hu horder
      rw [← horder.sizeWith_follow (defs.length + 1), ← hdiscSize name p hp, hsizeOf,
        (unionPlan?_disc hplan).1, hcanon]
      change (defs.canonical u.discriminant.toShape).sizeWith _ = _
      generalize defs.canonical u.discriminant.toShape = shape at hscalar
      obtain ⟨base, arity, length⟩ := shape
      cases hscalar
      rfl
    obtain ⟨d, hd, rfl⟩ := schema_find?_eq_some_iff.1 ht
    rw [hu] at hd
    cases hd
    have hunion : defs.sizeOf (defs.sizes order).of (.union u) = .fixed n := (hsize ht).symm.trans hn
    simp only [Definitions.sizeOf, hdisc] at hunion
    split at hunion
    · rename_i j k hj hcommon
      cases hj
      split_ifs at hunion
      cases hunion
      refine ⟨k, ?_, rfl⟩
      rw [hsizeOf]
      exact Size.eq_of_common? hcommon _ (mem_map_of_mem (decl_mem_of_arm hplan ha))
    · cases hunion

lemma accepted_schema (h : (analyze spec).schema = some s) :
    s.Sound ∧ s.Closed ∧ s.Sized ∧ ∃ rank, s.Ranked rank := by
  obtain ⟨hwf, order, hmade, horder, rfl⟩ := schema_of_analyze h
  exact ⟨hmade.schema_sound hwf horder, hmade.schema_closed, hmade.schema_sized hwf horder,
    _, horder.schema_ranked⟩

lemma accepted_enums_fit (h : (analyze spec).schema = some s) :
    ∀ t ∈ s.types, ∀ e, t.definition = .enum e →
      ∀ v ∈ e.variants, -(2 ^ 31) ≤ v.2 ∧ v.2 ≤ 2 ^ 31 - 1 := by
  obtain ⟨-, order, hmade, -, rfl⟩ := schema_of_analyze h
  intro t ht e he
  rw [schema_types] at ht
  obtain ⟨d, hd, rfl⟩ := mem_map.1 ht
  exact hmade.enum_values_fit (he ▸ hd)

end Xdr
