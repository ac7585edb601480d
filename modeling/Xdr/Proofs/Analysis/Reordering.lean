import Xdr.Proofs.Analysis.Causes
import Xdr.Proofs.Analysis.Canonical

/-!
# The order of definitions

Nothing that the analysis says of a specification depends on the order of its definitions: neither
whether it is accepted, nor what is known of its constants and types, nor what is warned of.
-/

namespace Xdr

open List

open Ast (Specification)

variable {spec other : Specification} {d : Declaration} {v : Int} {α β κ : Type} {p : Problem}
  {order order' : List String}

lemma lookup_congr_perm [DecidableEq κ] {xs ys : List (κ × β)} (h : xs.Perm ys)
    (hdistinct : (xs.map (·.1)).Nodup) (k : κ) : xs.lookup k = ys.lookup k := by
  by_cases hk : k ∈ xs.map (·.1)
  · obtain ⟨⟨_, v⟩, hmem, rfl⟩ := mem_map.1 hk
    rw [lookup_of_nodup_map hdistinct hmem,
      lookup_of_nodup_map ((h.map _).nodup_iff.1 hdistinct) (h.mem_iff.1 hmem)]
  · rw [lookup_of_notMem hk, lookup_of_notMem fun hk' => hk ((h.map _).mem_iff.2 hk')]

lemma find?_congr_perm [DecidableEq κ] {key : α → κ} {xs ys : List α} (h : xs.Perm ys)
    (hdistinct : (xs.map key).Nodup) (k : κ) :
    xs.find? (fun x => decide (key x = k)) = ys.find? (fun x => decide (key x = k)) := by
  cases hfind : xs.find? (fun x => decide (key x = k)) with
  | none =>
    refine (find?_eq_none.2 fun y hy => ?_).symm
    exact find?_eq_none.1 hfind y (h.mem_iff.2 hy)
  | some x =>
    have hx : x ∈ ys := h.mem_iff.1 (mem_of_find?_eq_some hfind)
    obtain rfl : key x = k := by simpa using find?_some hfind
    exact (find?_of_nodup_map ((h.map key).nodup_iff.1 hdistinct) hx).symm

namespace Ast.Specification

variable {spec other : Specification}

lemma bindings_perm (h : spec.definitions.Perm other.definitions) :
    spec.bindings.Perm other.bindings :=
  h.flatMap_right _

structure Agrees (spec other : Specification) : Prop where
  bindings : ∀ b, b ∈ spec.bindings ↔ b ∈ other.bindings
  typedefs : ∀ d, .typedef d ∈ spec.definitions ↔ .typedef d ∈ other.definitions
  enums : ∀ d, .enum d ∈ spec.definitions ↔ .enum d ∈ other.definitions

lemma Agrees.symm (h : Agrees spec other) : Agrees other spec :=
  ⟨fun b => (h.bindings b).symm, fun d => (h.typedefs d).symm, fun d => (h.enums d).symm⟩

lemma Agrees.of_perm (h : spec.definitions.Perm other.definitions) : Agrees spec other :=
  ⟨fun _ => (bindings_perm h).mem_iff, fun _ => h.mem_iff, fun _ => h.mem_iff⟩

lemma Denotes.reorder (h : Agrees spec other) {x : Value} (hx : spec.Denotes x v) :
    other.Denotes x v := by
  induction hx with
  | literal loc v text => exact .literal loc v text
  | predefined loc hpre => exact .predefined loc hpre
  | named loc hb hx _ ih => exact .named loc ((h.bindings _).1 hb) hx ih

lemma Canonical.reorder (h : Agrees spec other) {base target : Base} {arity final : Arity}
    (hc : spec.Canonical base arity target final) : other.Canonical base arity target final := by
  induction hc with
  | synonym hd _ ih => exact .synonym ((h.typedefs _).1 hd) ih
  | repeated base harity => exact .repeated base harity
  | plain base hplain => exact .plain base fun d hd => hplain d ((h.typedefs d).2 hd)

lemma HoldsByValue.reorder (h : spec.definitions.Perm other.definitions) {a b : String}
    (hab : spec.HoldsByValue a b) : other.HoldsByValue a b := by
  obtain ⟨d, hd, hrest⟩ := hab
  exact ⟨d, h.mem_iff.1 hd, hrest⟩

lemma Declares.reorder (h : Agrees spec other) {allowVoid : Bool} (hd : spec.Declares allowVoid d) :
    other.Declares allowVoid d := by
  obtain ⟨hbase, hsize⟩ := hd
  refine ⟨?_, fun size hs => ?_⟩
  · cases hty : d.ty.base with
    | builtin b | inlineBody loc kind => rwa [hty] at hbase
    | named name =>
      rw [hty] at hbase
      obtain ⟨b, hb, hname⟩ := hbase
      exact ⟨b, (h.bindings b).1 hb, hname⟩
  · obtain ⟨v, hv, hrange⟩ := hsize size hs
    exact ⟨v, hv.reorder h, hrange⟩

lemma Differ.reorder (h : Agrees spec other) {x y : Value} (hxy : spec.Differ x y) :
    other.Differ x y :=
  fun v hx hy => hxy v (hx.reorder h.symm) (hy.reorder h.symm)

lemma FlatArray.reorder (h : Agrees spec other) (hd : spec.FlatArray d) : other.FlatArray d :=
  fun element hbase harity base arity hc =>
    hd element hbase harity base arity (hc.reorder h.symm)

lemma InDomain.reorder (h : Agrees spec other) {label : Value} (hd : spec.InDomain d label v) :
    other.InDomain d label v := by
  refine ⟨fun b low high hc => hd.1 b low high (hc.reorder h.symm), fun e he hc => ?_⟩
  obtain ⟨⟨x, hx, hv⟩, hown⟩ := hd.2 e ((h.enums e).2 he) (hc.reorder h.symm)
  exact ⟨⟨x, hx, hv.reorder h⟩, fun f hf => hown f ((h.enums f).2 hf)⟩

lemma UnionWellFormed.reorder (h : Agrees spec other) {d : UnionDef}
    (hd : spec.UnionWellFormed d) : other.UnionWellFormed d where
  selects := by
    obtain ⟨base, hc, hbase⟩ := hd.selects
    refine ⟨base, hc.reorder h, hbase.imp_right ?_⟩
    rintro ⟨e, he, heq⟩
    exact ⟨e, (h.enums e).1 he, heq⟩
  labels := fun label hl => by
    obtain ⟨v, hv, hdomain⟩ := hd.labels label hl
    exact ⟨v, hv.reorder h, hdomain.reorder h⟩
  distinct := hd.distinct.imp fun hxy => hxy.reorder h
  names := hd.names

lemma WellFormed.reorder (h : spec.definitions.Perm other.definitions) (hw : spec.WellFormed) :
    other.WellFormed := by
  have hagrees := Agrees.of_perm h
  exact {
    names := (((bindings_perm h).map _).append_left _).nodup_iff.1 hw.names
    fields := fun d hd => hw.fields d (h.mem_iff.2 hd)
    constants := fun d hd => by
      obtain ⟨v, hv, hrange⟩ := hw.constants d (h.mem_iff.2 hd)
      exact ⟨v, hv.reorder hagrees, hrange⟩
    enumValues := fun d hd x hx => by
      obtain ⟨v, hv, hrange⟩ := hw.enumValues d (h.mem_iff.2 hd) x hx
      exact ⟨v, hv.reorder hagrees, hrange⟩
    enums := fun d hd => (hw.enums d (h.mem_iff.2 hd)).imp fun hxy => hxy.reorder hagrees
    plain := fun d hd m hm => (hw.plain d (h.mem_iff.2 hd) m hm).reorder hagrees
    arms := fun d hd m hm => (hw.arms d (h.mem_iff.2 hd) m hm).reorder hagrees
    acyclic := fun name hcycle =>
      hw.acyclic name (hcycle.lift id fun _ _ hab => hab.reorder h.symm)
    arrays := fun d hd m hm => (hw.arrays d (h.mem_iff.2 hd) m hm).reorder hagrees
    unions := fun d hd => (hw.unions d (h.mem_iff.2 hd)).reorder hagrees }

end Ast.Specification

lemma optionRel_imp {R S : α → β → Prop} (h : ∀ a b, R a b → S a b) {a : Option α} {b : Option β}
    (hab : Option.Rel R a b) : Option.Rel S a b := by
  cases hab with
  | none => exact .none
  | some hab => exact .some (h _ _ hab)

section

variable {spec other : Specification} (h : Specification.Agrees spec other)
include h

lemma ResolvesDecl.reorder {d : Ast.Declaration} {r : Decl} (hr : ResolvesDecl spec d r) :
    ResolvesDecl other d r :=
  ⟨hr.base, hr.arity, hr.name, optionRel_imp (fun _ _ hv => ⟨hv.1.reorder h, hv.2⟩) hr.length⟩

lemma ResolvesArm.reorder {a : Ast.UnionArm} {r : Arm} (hr : ResolvesArm spec a r) :
    ResolvesArm other a r :=
  ⟨hr.decl.reorder h, hr.labels.imp fun _ _ hl => ⟨hl.1.reorder h, hl.2⟩⟩

lemma Resolves.reorder {d : Ast.Definition} {r : Definition} (hr : Resolves spec d r) :
    Resolves other d r := by
  cases hr with
  | enum hname hvariants =>
    exact .enum hname (hvariants.imp fun _ _ hv => ⟨hv.1, hv.2.1.reorder h, hv.2.2⟩)
  | struct hname hfields => exact .struct hname (hfields.imp fun _ _ hf => hf.reorder h)
  | typedef hname hdecl => exact .typedef hname (hdecl.reorder h)
  | union hname hdisc harms hfall =>
    exact .union hname (hdisc.reorder h) (harms.imp fun _ _ ha => ha.reorder h)
      (optionRel_imp (fun _ _ hd => hd.reorder h) hfall)

end

lemma rightUnique_optionRel {R : α → β → Prop} (h : Relator.RightUnique R) :
    Relator.RightUnique (Option.Rel R) := by
  rintro a b c hb hc
  cases hb with
  | none => cases hc; rfl
  | some hab =>
    cases hc with
    | some hac => rw [h hab hac]

section

variable {spec other : Specification} (hnames : DistinctNames spec)
include hnames

lemma ResolvesDecl.rightUnique : Relator.RightUnique (ResolvesDecl spec) := by
  rintro d ⟨⟨base, arity, length⟩, name⟩ ⟨⟨base', arity', length'⟩, name'⟩ h k
  have hbase := Base.written_injective (h.base.symm.trans k.base)
  have harity := h.arity.trans k.arity.symm
  have hname := h.name.trans k.name.symm
  have hlength := rightUnique_optionRel (fun x n m hn hm =>
    Int.ofNat_inj.1 (hn.1.unique hnames hm.1)) h.length k.length
  simp only at hbase harity hname hlength
  subst hbase harity hname hlength
  rfl

lemma ResolvesArm.rightUnique : Relator.RightUnique (ResolvesArm spec) := by
  rintro a ⟨labels, decl⟩ ⟨labels', decl'⟩ h k
  have hdecl := ResolvesDecl.rightUnique hnames h.decl k.decl
  have hlabels := Relator.RightUnique.forall₂ (fun x (l m : Label) hl hm => by
    obtain ⟨value, name⟩ := l
    obtain ⟨value', name'⟩ := m
    rw [Label.mk.injEq]
    exact ⟨hl.1.unique hnames hm.1, hl.2.trans hm.2.symm⟩) h.labels k.labels
  simp only at hdecl hlabels
  subst hdecl hlabels
  rfl

lemma Resolves.rightUnique : Relator.RightUnique (Resolves spec) := by
  rintro d r t h k
  have hdecl := ResolvesDecl.rightUnique hnames
  cases h with
  | enum hname hvariants =>
    rename_i e
    cases k with
    | enum kname kvariants =>
      rename_i f
      have hpairs := Relator.RightUnique.forall₂ (fun x (p q : String × Int) hp hq =>
        Prod.ext (hp.1.trans hq.1.symm) (hp.2.1.unique hnames hq.2.1)) hvariants kvariants
      obtain ⟨name, variants⟩ := e
      obtain ⟨name', variants'⟩ := f
      simp only at hname kname hpairs
      rw [hname, kname, hpairs]
  | struct hname hfields =>
    rename_i e
    cases k with
    | struct kname kfields =>
      rename_i f
      have heq := hdecl.forall₂ hfields kfields
      obtain ⟨name, fields⟩ := e
      obtain ⟨name', fields'⟩ := f
      simp only at hname kname heq
      rw [hname, kname, heq]
  | typedef hname htarget =>
    rename_i e
    cases k with
    | typedef kname ktarget =>
      rename_i f
      have heq := hdecl htarget ktarget
      obtain ⟨name, decl⟩ := e
      obtain ⟨name', decl'⟩ := f
      simp only at hname kname heq
      rw [hname, kname, heq]
  | union hname hdisc harms hfall =>
    rename_i e
    cases k with
    | union kname kdisc karms kfallback =>
      rename_i f
      have hdisc := hdecl hdisc kdisc
      have harms := (ResolvesArm.rightUnique hnames).forall₂ harms karms
      have hfall := rightUnique_optionRel hdecl hfall kfallback
      obtain ⟨name, discriminant, arms, fallback⟩ := e
      obtain ⟨name', discriminant', arms', fallback'⟩ := f
      simp only at hname kname hdisc harms hfall
      rw [hname, kname, hdisc, harms, hfall]

lemma Elaborated.defs_perm {defs others : Definitions} (h : Elaborated spec defs)
    (k : Elaborated other others) (hperm : spec.definitions.Perm other.definitions) :
    defs.Perm others := by
  have hresolves : ∀ d r, Resolves other d r → Resolves spec d r := fun d r hr =>
    hr.reorder (.of_perm hperm.symm)
  exact rel_perm_imp (Resolves.rightUnique hnames) h.resolves
    (k.resolves.imp hresolves) (hperm.filter _)

end

namespace Definitions

variable {defs others : Definitions} (hperm : defs.Perm others) (hnames : (defs.map (·.name)).Nodup)
include hperm hnames

lemma find?_reorder (name : String) : defs.find? name = others.find? name :=
  find?_congr_perm hperm hnames name

lemma follow_reorder (n : Nat) : ∀ s, defs.follow n s = others.follow n s := by
  induction n with
  | zero => exact fun _ => rfl
  | succ n ih =>
    intro s
    simp only [follow, find?_reorder hperm hnames, ih]

lemma canonical_reorder (s : Shape) : defs.canonical s = others.canonical s := by
  rw [canonical, canonical, hperm.length_eq, follow_reorder hperm hnames]

lemma domain?_reorder (s : Shape) : defs.domain? s = others.domain? s := by
  simp only [domain?, enumOf?, canonical_reorder hperm hnames, find?_reorder hperm hnames]

lemma exhaustive_reorder (u : UnionType) : defs.exhaustive u = others.exhaustive u := by
  rw [exhaustive, exhaustive, domain?_reorder hperm hnames]

lemma sizeOf_reorder (sizes : String → Size) (d : Definition) :
    defs.sizeOf sizes d = others.sizeOf sizes d := by
  cases d with
  | union u => simp only [sizeOf, exhaustive_reorder hperm hnames]
  | _ => rfl

lemma sizes_reorder (horder : TypeOrder defs order) (horder' : TypeOrder others order')
    (name : String) : (defs.sizes order).of name = (others.sizes order').of name := by
  -- what a type holds has a smaller rank
  induction hrank : order.idxOf name using Nat.strong_induction_on generalizing name with
  | _ rank ih =>
    subst hrank
    have hfind := find?_reorder hperm hnames name
    cases hd : defs.find? name with
    | none =>
      rw [horder.sizes_of_undefined hd, horder'.sizes_of_undefined (hfind ▸ hd)]
    | some d =>
      rw [horder.sizes_of hd, horder'.sizes_of (hfind ▸ hd), ← sizeOf_reorder hperm hnames]
      refine sizeOf_congr d fun m hm target hbase harity => ?_
      have hholds : defs.graph.Holds name target := (defs.graph_spec.2.2 name target).2
        ⟨d, mem_of_find?_eq_some hd, by simpa using find?_some hd, m, hm, hbase, harity⟩
      exact ih _ (horder.ranking.decreases name target hholds) target rfl

end Definitions

lemma Graph.mentions_mention (name : String) (g : Graph) (m : Decl) (a b : String) :
    (mention name g m).Mentions a b ↔ g.Mentions a b ∨ a = name ∧ m.base = .named b := by
  unfold mention
  cases m.base with
  | builtin c => simp
  | named target =>
    by_cases harity : m.arity = .optional <;>
      simp [Mentions, addEdge, harity, addNode, mem_insertNew, eq_comm, or_assoc, or_comm,
        or_left_comm]

lemma Definitions.graph_mentions_iff (defs : Definitions) (a b : String) :
    defs.graph.Mentions a b ↔ ∃ d ∈ defs, d.name = a ∧ ∃ m ∈ d.members, m.base = .named b := by
  have hmembers : ∀ (name : String) (ms : List Decl) (g : Graph),
      (ms.foldl (Graph.mention name) g).Mentions a b ↔
        g.Mentions a b ∨ a = name ∧ ∃ m ∈ ms, m.base = .named b := by
    intro name ms
    induction ms with
    | nil => simp
    | cons m rest ih =>
      intro g
      rw [foldl_cons, ih, Graph.mentions_mention, exists_mem_cons_iff, or_assoc,
        and_or_left]
  have hfold : ∀ (ds : List Definition) (g : Graph),
      (ds.foldl Graph.addDefinition g).Mentions a b ↔ g.Mentions a b ∨
        ∃ d ∈ ds, d.name = a ∧ ∃ m ∈ d.members, m.base = .named b := by
    intro ds
    induction ds with
    | nil => simp
    | cons d rest ih =>
      intro g
      have hone : (g.addDefinition d).Mentions a b ↔
          g.Mentions a b ∨ a = d.name ∧ ∃ m ∈ d.members, m.base = .named b :=
        hmembers d.name d.members (g.addNode d.name)
      rw [foldl_cons, ih, hone, exists_mem_cons_iff, eq_comm (a := a), or_assoc]
  rw [graph, hfold]
  simp [Graph.Mentions, Graph.empty]

lemma Definitions.mem_opaqueTypes_iff (defs : Definitions) (name : String) :
    name ∈ defs.opaqueTypes defs.graph ↔
      ∃ target ∈ defs.directlyOpaque, Relation.ReflTransGen defs.graph.Mentions name target := by
  have hreversed : defs.graph.reversed.Included true = Function.swap defs.graph.Mentions := by
    rw [Graph.included_reversed, Graph.included_true]
  have htargets : ∀ a b, defs.graph.reversed.Included true a b → b ∈ defs.graph.reversed.nodes := by
    intro a b hab
    rw [hreversed, Function.swap, graph_mentions_iff] at hab
    obtain ⟨d, hd, rfl, -⟩ := hab
    exact (defs.graph_spec.2.1 _).2 ⟨d, hd, .inl rfl⟩
  rw [opaqueTypes, Graph.mem_closure_iff htargets, hreversed]
  simp only [Relation.reflTransGen_swap]

namespace Definitions

variable {defs others : Definitions} (hperm : defs.Perm others) (hnames : (defs.map (·.name)).Nodup)
include hperm hnames

omit hnames in
lemma mentions_reorder (a b : String) : defs.graph.Mentions a b ↔ others.graph.Mentions a b := by
  simp only [graph_mentions_iff, hperm.mem_iff]

omit hnames in
lemma opaqueTypes_reorder (name : String) :
    (defs.opaqueTypes defs.graph).contains name =
      (others.opaqueTypes others.graph).contains name := by
  have hmentions : defs.graph.Mentions = others.graph.Mentions := by
    funext a b
    exact propext (mentions_reorder hperm a b)
  have hdirect : ∀ x, x ∈ defs.directlyOpaque ↔ x ∈ others.directlyOpaque :=
    fun x => ((hperm.filter _).map _).mem_iff
  rw [Bool.eq_iff_iff, contains_iff_mem, contains_iff_mem, mem_opaqueTypes_iff,
    mem_opaqueTypes_iff, hmentions]
  simp only [hdirect]

lemma schema_types_reorder (horder : TypeOrder defs order) (horder' : TypeOrder others order')
    (constants constants' : List (String × Int)) :
    (defs.schema constants defs.graph order).types.Perm
      (others.schema constants' others.graph order').types := by
  refine List.Perm.trans (.of_eq ?_) (hperm.map _)
  refine map_congr_left fun d hd => ?_
  rw [horder.lookup_canonicals hd, horder'.lookup_canonicals (hperm.mem_iff.1 hd),
    canonical_reorder hperm hnames, sizes_reorder hperm hnames horder horder',
    opaqueTypes_reorder hperm, Graph.dependencies_congr (mentions_reorder hperm)]

end Definitions

lemma findings_of_schema {s : Schema} (h : (analyze spec).schema = some s) :
    (analyze spec).findings = (resolution spec).1.unionFindings spec.bindings spec := by
  have hnames : DistinctNames spec := (schema_of_analyze h).1.names
  rw [analyze_schema] at h
  rw [analyze_findings]
  split at h
  · cases h
  · rename_i hcollect
    split at h
    · cases h
    · rename_i hsecond
      split at h
      · cases h
      · rename_i hcycle
        rw [not_not] at hcycle
        split at h
        · cases h
        · rename_i hfourth
          obtain ⟨order, horder, -⟩ := Option.map_eq_some_iff.1 h
          simp only [hcollect, hsecond, hcycle, hfourth, horder]
          rw [Bool.not_eq_true] at hfourth
          rw [fourthFindings, Bindings.collect_table hnames] at hfourth ⊢
          simp only [anyError_append, Bool.or_eq_false_iff] at hfourth
          rw [(secondFindings_faults hnames).eq_nil hfourth.1.1,
            (nestedArrays_faults _).eq_nil hfourth.1.2]
          rfl

lemma checkLabels_congr {bindings table : Bindings}
    (h : ∀ name, bindings.find? name = table.find? name) (union ty : String) (domain : Domain)
    (pairs : List (Ast.Value × Int)) : ∀ seen,
      checkLabels bindings union ty domain seen pairs = checkLabels table union ty domain seen pairs := by
  have hfind : bindings.find? = table.find? := funext h
  have hadmits : ∀ label v, domain.admits bindings label v = domain.admits table label v := by
    intro label v
    simp only [Domain.admits, hfind]
  induction pairs with
  | nil => exact fun _ => rfl
  | cons pair rest ih =>
    intro seen
    simp only [checkLabels, hadmits, ih]

lemma unionFindings_reorder (h : spec.definitions.Perm other.definitions)
    {defs others : Definitions} (hdefs : defs.Perm others) (hnames : (defs.map (·.name)).Nodup)
    (hbindings : ∀ name, Bindings.find? spec.bindings name = Bindings.find? other.bindings name) :
    (defs.unionFindings spec.bindings spec).Perm (others.unionFindings other.bindings other) := by
  refine List.Perm.trans (.of_eq ?_) (h.flatMap_right _)
  refine flatMap_congr fun d _ => ?_
  simp only [Definitions.find?_reorder hdefs hnames, unionFindings,
    Definitions.domain?_reorder hdefs hnames, checkLabels_congr hbindings]

lemma Evaluates.reorder (h : spec.definitions.Perm other.definitions) {b : Binding}
    (hv : Evaluates spec b v) : Evaluates other b v := by
  obtain ⟨x, hx, hd, hrange⟩ := hv
  exact ⟨x, hx, hd.reorder (.of_perm h), hrange⟩

lemma constants_reorder {values others : Valuation} (hs : Numbered spec values)
    (ho : Numbered other others) (h : spec.definitions.Perm other.definitions) :
    (Bindings.constants spec.bindings values).Perm (Bindings.constants other.bindings others) := by
  refine List.Perm.trans (.of_eq ?_) (((Specification.bindings_perm h).filter _).filterMap _)
  refine filterMap_congr fun b hb => ?_
  have hmem := (mem_filter.1 hb).1
  have hvalue : values.value? b.name = others.value? b.name := by
    refine Option.ext fun v => ?_
    rw [hs.value b hmem, ho.value b ((Specification.bindings_perm h).mem_iff.1 hmem)]
    exact ⟨fun hv => hv.reorder h, fun hv => hv.reorder h.symm⟩
  rw [hvalue]

lemma constants_nodup (hnames : DistinctNames spec) (values : Valuation) :
    ((Bindings.constants spec.bindings values).map (·.1)).Nodup := by
  have hsublist : ∀ bs : Bindings, ((bs.filterMap fun b =>
      (values.value? b.name).map (b.name, ·)).map (·.1)).Sublist (bs.map (·.name)) := by
    intro bs
    induction bs with
    | nil => exact .slnil
    | cons b rest ih =>
      cases hvalue : values.value? b.name with
      | none =>
        rw [filterMap_cons_none (by rw [hvalue]; rfl)]
        exact ih.cons _
      | some v =>
        rw [filterMap_cons_some (by rw [hvalue]; rfl)]
        exact ih.cons_cons _
  exact hnames.names_nodup.sublist ((hsublist _).trans (filter_sublist.map _))

lemma numbered_of_wellFormed (h : spec.WellFormed) : Numbered spec (evaluation spec).values := by
  have hclean : anyError (evaluation spec).findings = false := by
    rw [evaluation, Bindings.collect_table h.names, evaluateAll_clean_iff h.names, evaluated_iff]
    exact ⟨h.constants, h.enumValues⟩
  exact numbered_of_clean h.names hclean

lemma find?_bindings_reorder (h : spec.definitions.Perm other.definitions)
    (hnames : DistinctNames spec) (name : String) :
    Bindings.find? spec.bindings name = Bindings.find? other.bindings name := by
  rw [Bindings.find?, Bindings.find?,
    find?_congr_perm (Specification.bindings_perm h) hnames.names_nodup]

lemma Problem.code_of_warning (h : p.severity ≠ .error) : p.code = .unhandledVariants := by
  cases p <;> first | rfl | exact absurd rfl h

/-- A specification and any reordering of its definitions are accepted alike. When they are, both
schemas give every name the same constant and the same knowledge of its type, nothing but unhandled
variants is warned of, and the warnings are the same up to their order. -/
theorem analyze_reorder {spec other : Specification} (h : spec.definitions.Perm other.definitions) :
    ((analyze spec).schema.isSome = true ↔ (analyze other).schema.isSome = true) ∧
    ∀ s t, (analyze spec).schema = some s → (analyze other).schema = some t →
      s.constants.Perm t.constants ∧ (∀ name, s.constants.lookup name = t.constants.lookup name) ∧
      s.types.Perm t.types ∧ (∀ name, s.find? name = t.find? name) ∧
      (∀ f ∈ (analyze spec).findings, f.problem.code = .unhandledVariants) ∧
      (analyze spec).findings.Perm (analyze other).findings := by
  refine ⟨?_, fun s t hs ht => ?_⟩
  · rw [Option.isSome_iff_exists, Option.isSome_iff_exists]
    exact ⟨fun ⟨_, hs⟩ => exists_schema ((schema_of_analyze hs).1.reorder h),
      fun ⟨_, ht⟩ => exists_schema ((schema_of_analyze ht).1.reorder h.symm)⟩
  · obtain ⟨hspec, order, hdefs, horder, hschema⟩ := schema_of_analyze hs
    obtain ⟨hother, order', hdefs', horder', hschema'⟩ := schema_of_analyze ht
    have hperm := hdefs.defs_perm hspec.names hdefs' h
    have hnames := hdefs.defs_names_nodup
    have hconstants : s.constants.Perm t.constants := by
      rw [hschema, hschema', Bindings.collect_table hspec.names, Bindings.collect_table hother.names]
      exact constants_reorder (numbered_of_wellFormed hspec) (numbered_of_wellFormed hother) h
    have htypes : s.types.Perm t.types := by
      rw [hschema, hschema']
      exact Definitions.schema_types_reorder hperm hnames horder horder' _ _
    have hdistinct : (s.types.map (·.name)).Nodup := by
      have heq : s.types.map (·.name) = (resolution spec).1.map (·.name) := by
        rw [hschema, Definitions.schema, map_map]
        rfl
      rw [heq]
      exact hnames
    refine ⟨hconstants, fun name => ?_, htypes, find?_congr_perm htypes hdistinct, ?_, ?_⟩
    · refine lookup_congr_perm hconstants ?_ name
      rw [hschema, Bindings.collect_table hspec.names]
      exact constants_nodup hspec.names _
    · have hclean : anyError (analyze spec).findings = false := by
        rw [← Bool.not_eq_true, ← (analyze_ends spec).2, hs]
        exact nofun
      intro f hf
      exact Problem.code_of_warning (of_decide_eq_false ((anyError_eq_false_iff _).1 hclean f hf))
    · rw [findings_of_schema hs, findings_of_schema ht]
      exact unionFindings_reorder h hperm hnames (find?_bindings_reorder h hspec.names)

def lampUnion : Specification :=
  let plain (name : Option String) (base : Ast.Base) : Ast.Declaration :=
    ⟨none, name, ⟨none, base, .scalar, none⟩, none⟩
  ⟨none,
    [.union ⟨none, "lamp", plain (some "state") (.named "state"),
      [⟨none, [.reference none "ON"], plain (some "power") (.named "watts")⟩], none, none⟩,
     .typedef ⟨none, "watts",
      ⟨none, some "watts", ⟨none, .builtin .opaqueBytes, .fixed, some (.reference none "WIDTH")⟩, none⟩,
      none⟩,
     .enum ⟨none, "state",
      [⟨none, "OFF", .literal none 0 "0", none⟩, ⟨none, "ON", .reference none "ONE", none⟩], none⟩,
     .const ⟨none, "WIDTH", .literal none 6 "6", none⟩,
     .const ⟨none, "ONE", .literal none 1 "1", none⟩]⟩

theorem analyze_reorder_lampUnion :
    ∃ s t, (analyze lampUnion).schema = some s ∧
      (analyze ⟨none, lampUnion.definitions.reverse⟩).schema = some t ∧
      s.types.length = 3 ∧ s.find? "lamp" = t.find? "lamp" ∧
      s.constants.lookup "WIDTH" = t.constants.lookup "WIDTH" ∧
      (analyze lampUnion).findings.length = 1 ∧
      (analyze lampUnion).findings.Perm
        (analyze ⟨none, lampUnion.definitions.reverse⟩).findings := by
  obtain ⟨haccepted, hsame⟩ := @analyze_reorder lampUnion
    ⟨none, lampUnion.definitions.reverse⟩ (reverse_perm _).symm
  have hspec : (analyze lampUnion).schema.isSome := by decide +kernel
  obtain ⟨s, hs⟩ := Option.isSome_iff_exists.1 hspec
  obtain ⟨t, ht⟩ := Option.isSome_iff_exists.1 (haccepted.1 hspec)
  obtain ⟨-, hconstants, -, htypes, -, hfindings⟩ := hsame s t hs ht
  have hcount : (analyze lampUnion).schema.map (·.types.length) = some 3 := by decide +kernel
  rw [hs, Option.map_some, Option.some.injEq] at hcount
  exact ⟨s, t, hs, ht, hcount, htypes "lamp", hconstants "WIDTH", by decide +kernel, hfindings⟩

end Xdr
