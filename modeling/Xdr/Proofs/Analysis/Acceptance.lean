import Xdr.Proofs.Analysis.Mentions

/-!
# Unions and acceptance

A union without errors is one whose labels each select one arm.
-/

namespace Xdr

open List

open Ast (Specification)

variable {spec : Specification} {d : Ast.UnionDef} {u : UnionType} {r : Decl}

lemma checkLabels_faults (bindings : Bindings) (union ty : String) (domain : Domain)
    (pairs : List (Ast.Value × Int)) :
    ∀ seen, Faults spec (checkLabels bindings union ty domain seen pairs).2 := by
  induction pairs with
  | nil => exact fun _ => .nil
  | cons pair rest ih =>
    intro seen
    rw [checkLabels]
    split
    · exact forall_mem_cons.2 ⟨⟨rfl, trivial⟩, ih seen⟩
    · split
      · exact forall_mem_cons.2 ⟨⟨rfl, trivial⟩, ih seen⟩
      · exact ih _

lemma namesakes_faults (d : Ast.UnionDef) (u : UnionType) : Faults spec (namesakes d u) := by
  intro f hf
  obtain ⟨m, -, hf⟩ := mem_filterMap.1 hf
  split at hf
  · split at hf
    · cases hf
      exact ⟨rfl, trivial⟩
    · cases hf
  · cases hf

lemma checkLabels_eq_nil_iff (bindings : Bindings) (union ty : String) (domain : Domain)
    (pairs : List (Ast.Value × Int)) :
    ∀ seen, (checkLabels bindings union ty domain seen pairs).2 = [] ↔
      (∀ p ∈ pairs, domain.admits bindings p.1 p.2) ∧
        (pairs.map (·.2)).Nodup ∧ ∀ p ∈ pairs, p.2 ∉ seen := by
  induction pairs with
  | nil => simp [checkLabels]
  | cons p rest ih =>
    intro seen
    obtain ⟨label, v⟩ := p
    unfold checkLabels
    by_cases hadmits : domain.admits bindings label v
    · by_cases hseen : v ∈ seen
      · simp [hadmits, hseen]
      · simp only [hadmits, Bool.not_true, Bool.false_eq_true, ite_false, contains_iff_mem,
          hseen, ih]
        rw [forall_mem_cons, forall_mem_cons, map_cons, nodup_cons]
        constructor
        · rintro ⟨hall, hnodup, hfresh⟩
          refine ⟨⟨hadmits, hall⟩, ⟨fun hmem => ?_, hnodup⟩, hseen, fun p hp hp' => ?_⟩
          · obtain ⟨p, hp, rfl⟩ := mem_map.1 hmem
            exact hfresh p hp (.head _)
          · exact hfresh p hp (.tail _ hp')
        · rintro ⟨⟨-, hall⟩, ⟨hne, hnodup⟩, -, hfresh⟩
          refine ⟨hall, hnodup, fun p hp hmem => ?_⟩
          rcases mem_cons.1 hmem with heq | hmem
          · exact hne (mem_map.2 ⟨p, hp, heq⟩)
          · exact hfresh p hp hmem
    · simp [hadmits]

lemma labelPairs_denote (harms : List.Forall₂ (ResolvesArm spec) d.arms u.arms) :
    List.Forall₂ (fun x (p : Ast.Value × Int) => p.1 = x ∧ spec.Denotes x p.2) d.labels
      (labelPairs d u) := by
  have hzip : ∀ {xs : List Ast.Value} {ls : List Label},
      List.Forall₂ (fun x l => spec.Denotes x l.value ∧ l.name = x.name?) xs ls →
      List.Forall₂ (fun x (p : Ast.Value × Int) => p.1 = x ∧ spec.Denotes x p.2) xs
        (xs.zip (ls.map (·.value))) := by
    intro xs ls h
    induction h with
    | nil => exact .nil
    | cons hxl _ ih => exact .cons ⟨rfl, hxl.1⟩ ih
  have hall : ∀ {as : List Ast.UnionArm} {rs : List Arm}, List.Forall₂ (ResolvesArm spec) as rs →
      List.Forall₂ (fun x (p : Ast.Value × Int) => p.1 = x ∧ spec.Denotes x p.2)
        (as.flatMap (·.labels)) ((as.zip rs).flatMap fun p => p.1.labels.zip p.2.values) := by
    intro as rs h
    induction h with
    | nil => exact .nil
    | cons har _ ih => exact rel_append (hzip har.labels) ih
  exact hall harms

lemma labels_denote (harms : List.Forall₂ (ResolvesArm spec) d.arms u.arms) :
    List.Forall₂ spec.Denotes d.labels u.labels := by
  have hall : ∀ {as : List Ast.UnionArm} {rs : List Arm}, List.Forall₂ (ResolvesArm spec) as rs →
      List.Forall₂ spec.Denotes (as.flatMap (·.labels)) (rs.flatMap Arm.values) := by
    intro as rs h
    induction h with
    | nil => exact .nil
    | cons har _ ih =>
      refine rel_append ?_ ih
      exact forall₂_map_right_iff.2 (har.labels.imp fun _ _ hxl => hxl.1)
  exact hall harms

lemma pairwise_differ_iff (hnames : DistinctNames spec) {xs : List Ast.Value} {ns : List Int}
    (h : List.Forall₂ spec.Denotes xs ns) : xs.Pairwise spec.Differ ↔ ns.Nodup := by
  induction h with
  | nil => simp
  | cons hxn hrest ih =>
    rw [pairwise_cons, nodup_cons, ih]
    refine and_congr_left' ?_
    constructor
    · intro hdiffer hmem
      obtain ⟨y, hy, hyn⟩ := exists_of_forall₂_right hrest hmem
      exact hdiffer y hy _ hxn hyn
    · intro hnot y hy v hv hyv
      obtain ⟨n, hn, hyn⟩ := exists_of_forall₂_left hrest hy
      rw [hxn.unique hnames hv, ← hyn.unique hnames hyv] at hnot
      exact hnot hn

/-- The label names a value of an enum that is not the one of that name. -/
def foreign (bindings : Bindings) (label : Ast.Value) (enum : String) : Bool :=
  match label.name?.bind bindings.find? with
  | some s => s.kind = .enumValue && s.owner != some enum
  | none => false

lemma admits_enum (bindings : Bindings) (e : EnumType) (label : Ast.Value) (v : Int) :
    (Domain.enum e).admits bindings label v =
      (!foreign bindings label e.name && e.values.contains v) := rfl

lemma mem_selecting_iff (b : Builtin) :
    b ∈ Specification.selecting ↔ ∃ low high, b.range? = some (low, high) := by
  cases b <;> simp [Specification.selecting, Builtin.range?]

namespace Elaborated

variable {spec : Specification} {defs : Definitions} (h : Elaborated spec defs)
  (hacyclic : defs.graph.Acyclic)
include h hacyclic

lemma domain_cases (s : Shape) :
    (∃ d e, .enum d ∈ spec.definitions ∧ Resolves spec (.enum d) (.enum e) ∧
        spec.Canonical s.base.written s.arity (.named d.name) .scalar ∧
        defs.domain? s = some (.enum e)) ∨
      (∃ b low high, spec.Canonical s.base.written s.arity (.builtin b) .scalar ∧
        b.range? = some (low, high) ∧ defs.domain? s = some (.integer b low high)) ∨
      (defs.domain? s = none ∧
        (∀ b ∈ Specification.selecting,
          ¬ spec.Canonical s.base.written s.arity (.builtin b) .scalar) ∧
        ∀ e, .enum e ∈ spec.definitions →
          ¬ spec.Canonical s.base.written s.arity (.named e.name) .scalar) := by
  have hcanon := h.canonical_canonical hacyclic s
  by_cases harity : (defs.canonical s).arity = .scalar
  · rw [harity] at hcanon
    cases hbase : (defs.canonical s).base with
    | builtin b =>
      rw [hbase] at hcanon
      have henum : defs.enumOf? s = none := by simp [Definitions.enumOf?, harity, hbase]
      have hdomain : defs.domain? s = b.range?.map fun r => .integer b r.1 r.2 := by
        simp [Definitions.domain?, henum, harity, hbase]
      cases hrange : b.range? with
      | some r =>
        obtain ⟨low, high⟩ := r
        exact .inr (.inl ⟨b, low, high, hcanon, hrange, by rw [hdomain, hrange]; rfl⟩)
      | none =>
        refine .inr (.inr ⟨by rw [hdomain, hrange]; rfl, fun c hc hother => ?_, fun e _ hother => ?_⟩)
        · obtain ⟨hbc, -⟩ := hother.unique h.names hcanon
          obtain ⟨low, high, hr⟩ := (mem_selecting_iff c).1 hc
          cases hbc
          rw [hrange] at hr
          cases hr
        · obtain ⟨hbc, -⟩ := hother.unique h.names hcanon
          cases hbc
    | named name =>
      rw [hbase] at hcanon
      by_cases henum : ∃ e, defs.find? name = some (.enum e)
      · obtain ⟨e, he⟩ := henum
        obtain ⟨d, hd, rfl, hde⟩ := h.find?_written he
        cases hde with
        | enum hname hvariants =>
          refine .inl ⟨_, e, hd, .enum hname hvariants, hcanon, ?_⟩
          simp [Definitions.domain?, Definitions.enumOf?, harity, hbase, he]
      · have hnone : defs.enumOf? s = none := by
          simp only [Definitions.enumOf?, harity, hbase]
          split
          · rename_i e he
            exact absurd ⟨e, he⟩ henum
          · rfl
        refine .inr (.inr ⟨by simp [Definitions.domain?, hnone, harity, hbase],
          fun c _ hother => ?_, fun e he hother => ?_⟩)
        · obtain ⟨hbc, -⟩ := hother.unique h.names hcanon
          cases hbc
        · obtain ⟨hname, -⟩ := hother.unique h.names hcanon
          injection hname with hname
          obtain ⟨r, hr, her⟩ := h.find?_resolved he rfl
          cases her with
          | enum =>
            rw [← hname] at henum
            exact henum ⟨_, hr⟩
  · have henum : defs.enumOf? s = none := by
      unfold Definitions.enumOf?
      simp only
      split
      · exact absurd ‹_› harity
      · rfl
    have hnone : defs.domain? s = none := by
      simp only [Definitions.domain?, henum]
      split
      · exact absurd ‹_› harity
      · rfl
    refine .inr (.inr ⟨hnone, fun c _ hother => ?_, fun e _ hother => ?_⟩)
    · exact harity (hother.unique h.names hcanon).2.symm
    · exact harity (hother.unique h.names hcanon).2.symm

lemma selects_iff {d : Ast.Declaration} (hd : ResolvesDecl spec d r) :
    spec.Selects d ↔ ∃ domain, defs.domain? r.toShape = some domain := by
  unfold Specification.Selects
  rw [hd.base, ← hd.arity]
  rcases h.domain_cases hacyclic r.toShape with
    ⟨e, t, he, -, hcanon, hdomain⟩ | ⟨b, low, high, hcanon, hrange, hdomain⟩ |
      ⟨hdomain, hbuiltin, henum⟩
  · exact iff_of_true ⟨_, hcanon, .inr ⟨e, he, rfl⟩⟩ ⟨_, hdomain⟩
  · exact iff_of_true ⟨_, hcanon, .inl ⟨b, (mem_selecting_iff b).2 ⟨low, high, hrange⟩, rfl⟩⟩
      ⟨_, hdomain⟩
  · refine iff_of_false ?_ (by simp [hdomain])
    rintro ⟨base, hcanon, ⟨b, hb, rfl⟩ | ⟨e, he, rfl⟩⟩
    · exact hbuiltin b hb hcanon
    · exact henum e he hcanon

omit hacyclic in
lemma foreign_iff (label : Ast.Value) (name : String) :
    foreign spec.bindings label name ↔
      ∃ f, .enum f ∈ spec.definitions ∧ ∃ x ∈ f.variants, label.name? = some x.name ∧ f.name ≠ name := by
  unfold foreign
  constructor
  · intro hforeign
    split at hforeign
    · rename_i s hs
      obtain ⟨n, hn, hfind⟩ := Option.bind_eq_some_iff.1 hs
      simp only [Bool.and_eq_true, decide_eq_true_eq, bne_iff_ne] at hforeign
      cases hpre : predefined? n with
      | some v =>
        simp only [Bindings.find?, hpre, Option.isSome_some, ite_true, Option.some.injEq] at hfind
        rw [← hfind] at hforeign
        cases hforeign.1
      | none =>
        obtain ⟨hmem, rfl⟩ := Bindings.mem_of_find? hpre hfind
        rcases mem_bindings_cases hmem (by rw [hforeign.1]; rfl) with
          ⟨c, -, rfl⟩ | ⟨f, hf, x, hx, rfl⟩
        · cases hforeign.1
        · exact ⟨f, hf, x, hx, hn, fun heq => hforeign.2 (by rw [heq])⟩
    · cases hforeign
  · rintro ⟨f, hf, x, hx, hname, hne⟩
    have hfind := h.names.find?_name (mem_bindings_of_variant hf hx)
    simp only [hname, Option.bind_some, hfind]
    simp [hne]

lemma admits_iff {d : Ast.Declaration} (hd : ResolvesDecl spec d r) {domain : Domain}
    (hdomain : defs.domain? r.toShape = some domain) (label : Ast.Value) (v : Int) :
    domain.admits spec.bindings label v ↔ spec.InDomain d label v := by
  unfold Specification.InDomain
  rw [hd.base, ← hd.arity]
  rcases h.domain_cases hacyclic r.toShape with
    ⟨e, t, he, hres, hcanon, hdomain'⟩ | ⟨b, low, high, hcanon, hrange, hdomain'⟩ |
      ⟨hdomain', -, -⟩
  · rw [hdomain'] at hdomain
    cases hdomain
    cases hres with
    | enum hname hvariants =>
      have hvalues : t.values.contains v ↔ ∃ x ∈ e.variants, spec.Denotes x.value v := by
        rw [contains_iff_mem, EnumType.values, mem_map]
        constructor
        · rintro ⟨p, hp, rfl⟩
          obtain ⟨x, hx, hxp⟩ := exists_of_forall₂_right hvariants hp
          exact ⟨x, hx, hxp.2.1⟩
        · rintro ⟨x, hx, hxv⟩
          obtain ⟨p, hp, hxp⟩ := exists_of_forall₂_left hvariants hx
          exact ⟨p, hp, hxp.2.1.unique h.names hxv⟩
      rw [admits_enum, Bool.and_eq_true, Bool.not_eq_true', ← Bool.not_eq_true, hvalues,
        h.foreign_iff, hname]
      constructor
      · rintro ⟨hown, hmember⟩
        refine ⟨fun b low high hother _ => ?_, fun f hf hother => ?_⟩
        · obtain ⟨hne, -⟩ := hother.unique h.names hcanon
          cases hne
        · obtain ⟨hfe, -⟩ := hother.unique h.names hcanon
          injection hfe with hfe
          have heq := h.definition_eq hf he hfe
          injection heq with heq
          subst heq
          refine ⟨hmember, fun g hg x hx hlabel => ?_⟩
          by_contra hne
          exact hown ⟨g, hg, x, hx, hlabel, hne⟩
      · rintro ⟨-, henum⟩
        obtain ⟨hmember, hown⟩ := henum e he hcanon
        refine ⟨?_, hmember⟩
        rintro ⟨g, hg, x, hx, hlabel, hne⟩
        exact hne (hown g hg x hx hlabel)
  · rw [hdomain'] at hdomain
    cases hdomain
    simp only [Domain.admits, Bool.and_eq_true, decide_eq_true_eq]
    constructor
    · intro hbounds
      refine ⟨fun c low' high' hother hrange' => ?_, fun f _ hother => ?_⟩
      · obtain ⟨hbc, -⟩ := hother.unique h.names hcanon
        cases hbc
        rw [hrange] at hrange'
        cases hrange'
        exact hbounds
      · obtain ⟨hne, -⟩ := hother.unique h.names hcanon
        cases hne
    · rintro ⟨hbounds, -⟩
      exact hbounds b low high hcanon hrange
  · rw [hdomain'] at hdomain
    cases hdomain

omit h hacyclic in
lemma namesakes_eq_nil_iff (hdisc : ResolvesDecl spec d.discriminant u.discriminant) :
    namesakes d u = [] ↔
      ∀ a ∈ d.armDeclarations, ∀ name, a.name = some name → d.discriminant.name ≠ some name := by
  rw [namesakes, filterMap_eq_nil_iff, hdisc.name]
  refine forall₂_congr fun a _ => ?_
  cases a.name with
  | none | some name => simp

lemma unionFindings_clean_iff (hres : Resolves spec (.union d) (.union u)) :
    anyError (unionFindings spec.bindings defs d u) = false ↔ spec.UnionWellFormed d := by
  cases hres with
  | union hname hdisc harms hfall =>
    have hselects := h.selects_iff hacyclic hdisc
    cases hdomain : defs.domain? u.discriminant.toShape with
    | none =>
      rw [hdomain] at hselects
      refine iff_of_false ?_ fun hwf => ?_
      · simp only [unionFindings, hdomain]
        exact Bool.noConfusion
      · obtain ⟨domain, hsome⟩ := hselects.1 hwf.selects
        cases hsome
    | some domain =>
      have hpairs := labelPairs_denote harms
      have hnamed : Faults spec (namesakes d u) := namesakes_faults d u
      have hlabels : Faults spec (checkLabels spec.bindings u.name u.discriminant.base.spelling
          domain [] (labelPairs d u)).2 := checkLabels_faults _ _ _ _ _ _
      have hwarning : ∀ missing : List String, anyError
          (if missing.isEmpty then [] else [⟨.unhandledVariants u.name missing, d.nameSpan⟩]) =
            false := by
        intro missing
        split <;> rfl
      have hclean : anyError (unionFindings spec.bindings defs d u) = false ↔
          (checkLabels spec.bindings u.name u.discriminant.base.spelling domain []
            (labelPairs d u)).2 = [] ∧ namesakes d u = [] := by
        simp only [unionFindings, hdomain, anyError_append, hwarning, Bool.or_false,
          Bool.or_eq_false_iff]
        constructor
        · rintro ⟨hl, hn⟩
          exact ⟨hlabels.eq_nil hl, hnamed.eq_nil hn⟩
        · rintro ⟨hl, hn⟩
          rw [hl, hn]
          exact ⟨rfl, rfl⟩
      have hnumbers : List.Forall₂ spec.Denotes d.labels ((labelPairs d u).map (·.2)) :=
        forall₂_map_right_iff.2 (hpairs.imp fun _ _ hxp => hxp.2)
      rw [hclean, checkLabels_eq_nil_iff, namesakes_eq_nil_iff hdisc, ← pairwise_differ_iff h.names hnumbers]
      constructor
      · rintro ⟨⟨hadmits, hdiffer, -⟩, hnamesakes⟩
        refine ⟨hselects.2 ⟨domain, hdomain⟩, fun x hx => ?_, hdiffer, hnamesakes⟩
        obtain ⟨p, hp, rfl, hv⟩ := exists_of_forall₂_left hpairs hx
        exact ⟨p.2, hv, (h.admits_iff hacyclic hdisc hdomain p.1 p.2).1 (hadmits p hp)⟩
      · intro hwf
        refine ⟨⟨fun p hp => ?_, hwf.distinct, by simp⟩, hwf.names⟩
        obtain ⟨x, hx, rfl, hv⟩ := exists_of_forall₂_right hpairs hp
        obtain ⟨v, hv', hin⟩ := hwf.labels p.1 hx
        rw [h.admits_iff hacyclic hdisc hdomain, hv.unique h.names hv']
        exact hin

lemma unions_clean_iff :
    anyError (defs.unionFindings spec.bindings spec) = false ↔
      ∀ d, .union d ∈ spec.definitions → spec.UnionWellFormed d := by
  have hfind : ∀ d, .union d ∈ spec.definitions →
      ∃ u, defs.find? d.name = some (.union u) ∧ Resolves spec (.union d) (.union u) := by
    intro d hd
    obtain ⟨r, hr, hdr⟩ := h.find?_resolved hd rfl
    cases hdr with
    | union hname hdisc harms hfall => exact ⟨_, hr, .union hname hdisc harms hfall⟩
  rw [anyError_eq_false_iff]
  constructor
  · intro hclean d hd
    obtain ⟨u, hu, hres⟩ := hfind d hd
    rw [← h.unionFindings_clean_iff hacyclic hres, anyError_eq_false_iff]
    intro f hf
    exact hclean f (mem_flatMap.2 ⟨.union d, hd, by simpa only [hu] using hf⟩)
  · intro hall f hf
    obtain ⟨d, hd, hf⟩ := mem_flatMap.1 hf
    cases d with
    | union d =>
      obtain ⟨u, hu, hres⟩ := hfind d hd
      have hclean := (h.unionFindings_clean_iff hacyclic hres).2 (hall d hd)
      simp only [hu] at hf
      exact (anyError_eq_false_iff _).1 hclean f hf
    | _ => cases hf

end Elaborated

/-! ## Acceptance -/

section

variable (spec : Specification)

def evaluation : Evaluation := (Bindings.collect spec).1.evaluateAll

def resolution : Definitions × List Finding :=
  Scope.definitions ⟨(Bindings.collect spec).1, (evaluation spec).values⟩ spec

def secondFindings : List Finding :=
  (evaluation spec).findings ++ (evaluation spec).values.enumFindings spec ++ (resolution spec).2

def fourthFindings : List Finding :=
  secondFindings spec ++ (resolution spec).1.nestedArrays spec ++
    (resolution spec).1.unionFindings (Bindings.collect spec).1 spec

lemma analyze_schema :
    (analyze spec).schema =
      if anyError (Bindings.collect spec).2 then none
      else if anyError (secondFindings spec) then none
      else if (resolution spec).1.graph.findCycle ≠ [] then none
      else if anyError (fourthFindings spec) then none
      else (resolution spec).1.graph.topologicalOrder.map
        ((resolution spec).1.schema
          ((Bindings.collect spec).1.constants (evaluation spec).values)
          (resolution spec).1.graph) := by
  rw [secondFindings, fourthFindings, secondFindings, resolution, evaluation]
  unfold analyze
  simp only
  split
  · rfl
  · split
    · rfl
    · split
      · rename_i hcycle
        rw [hcycle]
        rfl
      · rename_i hcycle
        rw [hcycle]
        simp only [ne_eq, not_true_eq_false, ite_false]
        split
        · rfl
        · split
          · rename_i horder
            rw [horder]
            rfl
          · rename_i order horder
            rw [horder]
            rfl

end

section

variable {spec : Specification} (hnames : DistinctNames spec)
include hnames

lemma numbered_of_clean (hclean : anyError (evaluation spec).findings = false) :
    Numbered spec (evaluation spec).values := by
  unfold evaluation at hclean ⊢
  rw [Bindings.collect_table hnames] at hclean ⊢
  exact numbered_evaluateAll hnames hclean

lemma secondFindings_clean_iff :
    anyError (secondFindings spec) = false ↔
      (∀ d, .const d ∈ spec.definitions →
        ∃ v, spec.Denotes d.value v ∧ -(2 ^ 63) ≤ v ∧ v ≤ 2 ^ 63 - 1) ∧
      (∀ d, .enum d ∈ spec.definitions → ∀ x ∈ d.variants,
        ∃ v, spec.Denotes x.value v ∧ -(2 ^ 31) ≤ v ∧ v ≤ 2 ^ 31 - 1) ∧
      (∀ d, .enum d ∈ spec.definitions →
        d.variants.Pairwise fun x y => spec.Differ x.value y.value) ∧
      (∀ d ∈ spec.definitions, ∀ m ∈ d.plainDeclarations, spec.Declares false m) ∧
      ∀ u, .union u ∈ spec.definitions → (∀ m ∈ u.armDeclarations, spec.Declares true m) ∧
        ∀ x ∈ u.labels, ∃ v, spec.Denotes x v := by
  have hevaluation : anyError (evaluation spec).findings = false ↔
      ∀ b ∈ spec.bindings, b.kind.isValue → ∃ v, Evaluates spec b v := by
    rw [evaluation, Bindings.collect_table hnames, evaluateAll_clean_iff hnames]
  rw [evaluated_iff] at hevaluation
  rw [secondFindings, anyError_append, anyError_append, Bool.or_eq_false_iff, Bool.or_eq_false_iff,
    and_assoc]
  constructor
  · rintro ⟨hvalues, henums, hmentions⟩
    have hnumbered := numbered_of_clean hnames hvalues
    rw [resolution, Bindings.collect_table hnames, definitions_clean_iff hnumbered] at hmentions
    rw [enumFindings_clean_iff hnumbered] at henums
    obtain ⟨hconstants, hvariants⟩ := hevaluation.1 hvalues
    exact ⟨hconstants, hvariants, henums, hmentions⟩
  · rintro ⟨hconstants, hvariants, henums, hmentions⟩
    have hvalues := hevaluation.2 ⟨hconstants, hvariants⟩
    have hnumbered := numbered_of_clean hnames hvalues
    refine ⟨hvalues, (enumFindings_clean_iff hnumbered).2 henums, ?_⟩
    rw [resolution, Bindings.collect_table hnames, definitions_clean_iff hnumbered]
    exact hmentions

lemma elaborated_of_clean (hclean : anyError (secondFindings spec) = false) :
    Elaborated spec (resolution spec).1 := by
  obtain ⟨-, -, -, hplain, harms⟩ := (secondFindings_clean_iff hnames).1 hclean
  simp only [secondFindings, anyError_append, Bool.or_eq_false_iff] at hclean
  obtain ⟨⟨hvalues, -⟩, hmentions⟩ := hclean
  have hnumbered := numbered_of_clean hnames hvalues
  refine ⟨hnames, ?_, hplain, fun u hu => (harms u hu).1⟩
  rw [resolution, Bindings.collect_table hnames] at hmentions ⊢
  exact definitions_resolve hnumbered hmentions

lemma fourthFindings_clean_iff (hclean : anyError (secondFindings spec) = false)
    (hacyclic : (resolution spec).1.graph.Acyclic) :
    anyError (fourthFindings spec) = false ↔
      (∀ d ∈ spec.definitions, ∀ m ∈ d.declarations, spec.FlatArray m) ∧
        ∀ d, .union d ∈ spec.definitions → spec.UnionWellFormed d := by
  have hmade := elaborated_of_clean hnames hclean
  rw [fourthFindings, Bindings.collect_table hnames, anyError_append, anyError_append, hclean,
    Bool.false_or, Bool.or_eq_false_iff, hmade.nestedArrays_clean_iff hacyclic,
    hmade.unions_clean_iff hacyclic]

end

lemma schema_of_analyze {spec : Specification} {s : Schema} (h : (analyze spec).schema = some s) :
    spec.WellFormed ∧ ∃ order, Elaborated spec (resolution spec).1 ∧
      TypeOrder (resolution spec).1 order ∧
      s = (resolution spec).1.schema ((Bindings.collect spec).1.constants (evaluation spec).values)
        (resolution spec).1.graph order := by
  rw [analyze_schema] at h
  split at h
  · cases h
  · rename_i hcollect
    rw [Bool.not_eq_true, Bindings.collect_clean_iff] at hcollect
    obtain ⟨hnames, hfields⟩ := hcollect
    split at h
    · cases h
    · rename_i hsecond
      rw [Bool.not_eq_true] at hsecond
      have hmade := elaborated_of_clean hnames hsecond
      split at h
      · cases h
      · rename_i hcycle
        rw [not_not, Graph.findCycle_eq_nil_iff (Definitions.graph_closed _)] at hcycle
        split at h
        · cases h
        · rename_i hfourth
          rw [Bool.not_eq_true, fourthFindings_clean_iff hnames hsecond hcycle] at hfourth
          obtain ⟨hconstants, hvariants, henums, hplain, harms⟩ :=
            (secondFindings_clean_iff hnames).1 hsecond
          obtain ⟨order, htopo, horder⟩ := hmade.exists_order hcycle
          rw [htopo, Option.map_some, Option.some.injEq] at h
          exact ⟨⟨hnames, hfields, hconstants, hvariants, henums, hplain,
            fun d hd => (harms d hd).1, hmade.graph_acyclic_iff.1 hcycle, hfourth.1,
            hfourth.2⟩, order, hmade, horder, h.symm⟩

lemma exists_schema {spec : Specification} (h : spec.WellFormed) :
    ∃ s, (analyze spec).schema = some s := by
  have hcollect := (Bindings.collect_clean_iff spec).2 ⟨h.names, h.fields⟩
  have hlabels : ∀ u, .union u ∈ spec.definitions →
      (∀ m ∈ u.armDeclarations, spec.Declares true m) ∧ ∀ x ∈ u.labels, ∃ v, spec.Denotes x v := by
    intro u hu
    refine ⟨h.arms u hu, fun x hx => ?_⟩
    obtain ⟨v, hv, -⟩ := (h.unions u hu).labels x hx
    exact ⟨v, hv⟩
  have hsecond := (secondFindings_clean_iff h.names).2
    ⟨h.constants, h.enumValues, h.enums, h.plain, hlabels⟩
  have hmade := elaborated_of_clean h.names hsecond
  have hacyclic := hmade.graph_acyclic_iff.2 h.acyclic
  have hcycle := (Graph.findCycle_eq_nil_iff (Definitions.graph_closed _)).2 hacyclic
  have hfourth := (fourthFindings_clean_iff h.names hsecond hacyclic).2 ⟨h.arrays, h.unions⟩
  obtain ⟨order, htopo, -⟩ := hmade.exists_order hacyclic
  rw [analyze_schema, hcollect, hsecond, hcycle, hfourth, htopo]
  exact ⟨_, rfl⟩

/-- The analysis accepts exactly the well-formed specifications. -/
theorem analyze_accepts_iff_wellFormed (spec : Specification) :
    (analyze spec).schema.isSome = true ↔ spec.WellFormed := by
  constructor
  · intro h
    obtain ⟨s, hs⟩ := Option.isSome_iff_exists.1 h
    exact (schema_of_analyze hs).1
  · exact fun h => Option.isSome_iff_exists.2 (exists_schema h)

end Xdr
