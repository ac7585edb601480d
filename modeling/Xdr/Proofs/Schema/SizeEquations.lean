import Xdr.Proofs.Schema.Accepted

/-!
# The equations of sizes

What the sizes of types have to satisfy, as equations between them.
-/

namespace Xdr

open List

open Ast (Specification)

variable {d : Definition} {shape : Shape} {size : String → Size} {sizes : List Size} {u : UnionType}
  {b : Builtin} {n : Nat}

namespace Size

lemma eq_iff_fixed {a b : Size} : a = b ↔ ∀ n, a = .fixed n ↔ b = .fixed n := by
  refine ⟨fun h n => by rw [h], fun h => ?_⟩
  cases a with
  | fixed n => exact ((h n).1 rfl).symm
  | varying =>
    cases b with
    | fixed n => cases (h n).2 rfl
    | varying => rfl

lemma sum_eq_fixed_iff :
    Size.sum sizes = .fixed n ↔ ∃ ns : List Nat, sizes = ns.map .fixed ∧ ns.sum = n := by
  induction sizes generalizing n with
  | nil =>
    constructor
    · intro h
      cases h
      exact ⟨[], rfl, rfl⟩
    · rintro ⟨ns, hns, rfl⟩
      rw [eq_comm, map_eq_nil_iff] at hns
      rw [hns]
      rfl
  | cons size rest ih =>
    constructor
    · intro h
      cases size with
      | varying => cases h
      | fixed k =>
        cases hrest : Size.sum rest with
        | varying => simp [sum, hrest] at h
        | fixed m =>
          obtain ⟨ns, rfl, rfl⟩ := ih.1 hrest
          refine ⟨k :: ns, rfl, ?_⟩
          simpa [sum, hrest] using h
    · rintro ⟨ns, hns, rfl⟩
      cases ns with
      | nil => cases hns
      | cons k ns =>
        obtain ⟨rfl, rfl⟩ := List.cons.inj hns
        simp [sum, ih.2 ⟨ns, rfl, rfl⟩]

lemma common?_eq_some_iff {size : Size} :
    Size.common? sizes = some size ↔ sizes ≠ [] ∧ ∀ x ∈ sizes, x = size := by
  constructor
  · intro h
    refine ⟨?_, eq_of_common? h⟩
    rintro rfl
    cases h
  · rintro ⟨hne, hall⟩
    cases sizes with
    | nil => exact absurd rfl hne
    | cons first rest =>
      obtain rfl := hall first (.head _)
      simpa [common?] using fun x hx => hall x (mem_cons_of_mem first hx)

end Size

namespace Definitions

variable {defs : Definitions}

/-- Whatever is decoded as the discriminant selects an arm: there is a default arm, or all values of
the enum, or both truth values, are labels. -/
def Covers (defs : Definitions) (u : UnionType) : Prop :=
  u.fallback.isSome = true ∨
    (∃ e, defs.enumOf? u.discriminant.toShape = some e ∧ ∀ v ∈ e.variants, v.2 ∈ u.labels) ∨
    ((defs.canonical u.discriminant.toShape).arity = .scalar ∧
      (defs.canonical u.discriminant.toShape).base = .builtin .bool ∧ 0 ∈ u.labels ∧ 1 ∈ u.labels)

lemma domain?_of_enumOf? {e : EnumType} (h : defs.enumOf? shape = some e) :
    defs.domain? shape = some (.enum e) := by
  rw [domain?, h]

lemma enumOf?_eq_none_of_builtin (h : (defs.canonical shape).base = .builtin b) :
    defs.enumOf? shape = none := by
  unfold enumOf?
  simp only [h]
  split
  · contradiction
  · rfl

lemma domain?_of_builtin (harity : (defs.canonical shape).arity = .scalar)
    (hbase : (defs.canonical shape).base = .builtin b) :
    defs.domain? shape = b.range?.map fun r => .integer b r.1 r.2 := by
  simp only [domain?, enumOf?_eq_none_of_builtin hbase, harity, hbase]

lemma exhaustive_iff : defs.exhaustive u = true ↔ defs.Covers u := by
  rw [exhaustive, Covers]
  cases u.fallback with
  | some d => simp
  | none =>
    cases henum : defs.enumOf? u.discriminant.toShape with
    | some e =>
      -- what is an enum is no builtin type
      have hno : (defs.canonical u.discriminant.toShape).base ≠ .builtin .bool := by
        intro hbase
        rw [enumOf?_eq_none_of_builtin hbase] at henum
        cases henum
      simp [domain?_of_enumOf? henum, Domain.finite?, EnumType.values, hno]
    | none =>
      by_cases hbool : (defs.canonical u.discriminant.toShape).arity = .scalar ∧
          (defs.canonical u.discriminant.toShape).base = .builtin .bool
      · simp [domain?_of_builtin hbool.1 hbool.2, Builtin.range?, Domain.finite?, hbool.1, hbool.2]
      · -- no other domain is finite
        have hinfinite : (defs.domain? u.discriminant.toShape).bind Domain.finite? = none := by
          simp only [domain?, henum]
          split
          · rename_i b harity hbase
            cases b with
            | bool => exact absurd ⟨harity, hbase⟩ hbool
            | _ => rfl
          · rfl
        rw [← and_assoc]
        simp [hinfinite, hbool]

/-- Sizes of all types that satisfy the equation of each. -/
structure Solves (defs : Definitions) (size : String → Size) : Prop where
  enum : ∀ e, .enum e ∈ defs → size e.name = .fixed 4
  typedef : ∀ t, .typedef t ∈ defs → size t.name = t.decl.sizeWith size
  struct : ∀ t, .struct t ∈ defs → ∀ n, size t.name = .fixed n ↔
    ∃ ns : List Nat, (t.fields.map fun f => f.sizeWith size) = ns.map .fixed ∧ ns.sum = n
  union : ∀ u, .union u ∈ defs → ∀ n, size u.name = .fixed n ↔
    ∃ disc arm, u.discriminant.sizeWith size = .fixed disc ∧ u.declarations ≠ [] ∧
      (∀ d ∈ u.declarations, d.sizeWith size = .fixed arm) ∧ defs.Covers u ∧ disc + arm = n

lemma sizeOf_union_eq_fixed_iff :
    defs.sizeOf size (.union u) = .fixed n ↔
      ∃ disc arm, u.discriminant.sizeWith size = .fixed disc ∧ u.declarations ≠ [] ∧
        (∀ d ∈ u.declarations, d.sizeWith size = .fixed arm) ∧ defs.Covers u ∧ disc + arm = n := by
  have hcommon : ∀ arm, Size.common? (u.declarations.map fun d => d.sizeWith size) = some (.fixed arm) ↔
      u.declarations ≠ [] ∧ ∀ d ∈ u.declarations, d.sizeWith size = .fixed arm := by
    intro arm
    rw [Size.common?_eq_some_iff, ne_eq, map_eq_nil_iff, forall_mem_map]
  simp only [← exhaustive_iff]
  constructor
  · intro h
    simp only [sizeOf] at h
    split at h
    · rename_i disc arm hdisc harm
      split_ifs at h with hcovers
      obtain ⟨hne, harms⟩ := (hcommon arm).1 harm
      exact ⟨disc, arm, hdisc, hne, harms, hcovers, Size.fixed.inj h⟩
    · cases h
  · rintro ⟨disc, arm, hdisc, hne, harms, hcovers, rfl⟩
    simp [sizeOf, hdisc, (hcommon arm).2 ⟨hne, harms⟩, hcovers]

lemma solves_iff : defs.Solves size ↔ ∀ d ∈ defs, size d.name = defs.sizeOf size d := by
  constructor
  · intro h d hd
    cases d with
    | enum e => exact h.enum e hd
    | typedef t => exact h.typedef t hd
    | struct t => exact Size.eq_iff_fixed.2 fun n => (h.struct t hd n).trans Size.sum_eq_fixed_iff.symm
    | union u => exact Size.eq_iff_fixed.2 fun n => (h.union u hd n).trans sizeOf_union_eq_fixed_iff.symm
  · intro h
    refine ⟨fun e he => h _ he, fun t ht => h _ ht, fun t ht n => ?_, fun u hu n => ?_⟩
    · rw [show size t.name = _ from h _ ht]
      exact Size.sum_eq_fixed_iff
    · rw [show size u.name = _ from h _ hu]
      exact sizeOf_union_eq_fixed_iff

end Definitions

lemma Ranking.solution_unique {defs : Definitions} {rank : String → Nat}
    (hrank : Ranking defs rank)
    (hdefined : ∀ d ∈ defs, ∀ m ∈ d.members, ∀ name, m.base = .named name → ∃ e, defs.find? name = some e)
    {sizes others : String → Size} (hsizes : defs.Solves sizes) (hothers : defs.Solves others)
    (hd : d ∈ defs) : sizes d.name = others d.name := by
  rw [Definitions.solves_iff] at hsizes hothers
  induction hn : rank d.name using Nat.strong_induction_on generalizing d with
  | _ n ih =>
    subst hn
    rw [hsizes d hd, hothers d hd]
    refine Definitions.sizeOf_congr d fun m hm name hbase harity => ?_
    obtain ⟨e, he⟩ := hdefined d hd m hm name hbase
    have hname : e.name = name := by simpa using find?_some he
    have hless := hrank.decreases d.name name
      ((defs.graph_spec.2.2 d.name name).2 ⟨d, hd, rfl, m, hm, hbase, harity⟩)
    rw [← hname] at hless ⊢
    exact ih _ hless (mem_of_find?_eq_some he) rfl

lemma topologicalOrder_of_analyze {spec : Specification} {s : Schema}
    (h : (analyze spec).schema = some s) :
    ∃ order, (resolution spec).1.graph.topologicalOrder = some order ∧
      TypeOrder (resolution spec).1 order ∧
      s = (resolution spec).1.schema ((Bindings.collect spec).1.constants (evaluation spec).values)
        (resolution spec).1.graph order := by
  obtain ⟨hwf, -, hmade, -, -⟩ := schema_of_analyze h
  obtain ⟨order, htopo, horder⟩ :=
    hmade.exists_order (hmade.graph_acyclic_iff.2 hwf.acyclic)
  rw [analyze_schema, htopo] at h
  split_ifs at h
  exact ⟨order, htopo, horder, (Option.some.inj h).symm⟩

lemma TypeOrder.lookup_sizes {defs : Definitions} {order : List String}
    (horder : TypeOrder defs order) (hd : d ∈ defs) :
    List.lookup d.name (defs.sizes order) = some (defs.info order d).size := by
  refine Sizes.lookup_eq ?_
  rw [horder.computed.names_eq]
  exact (horder.mem_iff d.name).2 ⟨d, hd, rfl⟩

namespace Elaborated

variable {spec : Specification} {defs : Definitions} {constants : List (String × Int)}
  {order : List String} (h : Elaborated spec defs) (horder : TypeOrder defs order)

include h horder

lemma sizes_solve : defs.Solves (defs.sizes order).of :=
  Definitions.solves_iff.2 fun _ hd => horder.sizes_of ((h.find?_iff _ _).2 ⟨hd, rfl⟩)

lemma member_size? (hd : d ∈ defs) {m : Decl} (hm : m ∈ d.members) :
    m.size? (List.lookup · (defs.sizes order)) =
        some ((defs.schema constants defs.graph order).sizeOf m.toShape) ∧
      m.size? (fun name => ((defs.schema constants defs.graph order).find? name).map (·.size)) =
        some ((defs.schema constants defs.graph order).sizeOf m.toShape) := by
  rw [h.schema_sizeOf horder]
  have hmentioned : ∀ name, m.base = .named name → ∃ e ∈ defs, e.name = name ∧
      defs.find? name = some e := by
    intro name hbase
    obtain ⟨e, he⟩ := h.exists_defined hd hm hbase
    obtain ⟨hmem, hname⟩ := (h.find?_iff name e).1 he
    exact ⟨e, hmem, hname, he⟩
  refine ⟨m.toShape.size?_eq fun name hbase _ => ?_, m.toShape.size?_eq fun name hbase _ => ?_⟩
  · obtain ⟨e, hmem, rfl, -⟩ := hmentioned name hbase
    exact horder.lookup_sizes hmem
  · obtain ⟨e, -, rfl, he⟩ := hmentioned name hbase
    rw [Definitions.schema_find?, he]
    rfl

lemma sizeOf_canonical (hd : d ∈ defs) :
    (defs.schema constants defs.graph order).sizeOf (defs.info order d).canonical =
      (defs.info order d).size := by
  rw [h.schema_sizeOf horder, Definitions.info, horder.lookup_canonicals hd]
  exact horder.sizeWith_follow (defs.length + 1) (.scalar (.named d.name))

end Elaborated

/-- The sizes of an accepted specification are computed in topological order, without asking for a
size too early, and are the only ones that satisfy the equations. All questions about sizes that come
later are answered by them, and a type has the size of its canonical shape. -/
theorem sizes_unique_solution {spec : Specification} {s : Schema} (h : (analyze spec).schema = some s) :
    ∃ order sizes, s.definitions.graph.topologicalOrder = some order ∧
      s.definitions.sizes? order = some sizes ∧
      (∀ t ∈ s.types, sizes.lookup t.name = some t.size) ∧
      s.definitions.Solves sizes.of ∧
      (∀ size, s.definitions.Solves size → ∀ t ∈ s.types, size t.name = t.size) ∧
      (∀ t ∈ s.types, ∀ m ∈ t.definition.members,
        m.size? (sizes.lookup ·) = some (s.sizeOf m.toShape) ∧
          m.size? (fun name => (s.find? name).map (·.size)) = some (s.sizeOf m.toShape)) ∧
      ∀ t ∈ s.types, s.sizeOf t.canonical = t.size := by
  obtain ⟨-, -, hmade, -, -⟩ := schema_of_analyze h
  obtain ⟨order, htopo, horder, rfl⟩ := topologicalOrder_of_analyze h
  generalize (resolution spec).1 = defs at *
  rw [Definitions.schema_definitions, Definitions.schema_types]
  simp only [forall_mem_map]
  have hsolves := hmade.sizes_solve horder
  refine ⟨order, defs.sizes order, htopo, horder.sizes?_eq,
    fun d hd => horder.lookup_sizes hd, hsolves, fun size hsize d hd => ?_,
    fun d hd m hm => hmade.member_size? horder hd hm,
    fun d hd => hmade.sizeOf_canonical horder hd⟩
  refine horder.ranking.solution_unique (fun d hd m hm name hbase => ?_) hsize hsolves hd
  exact hmade.exists_defined hd hm hbase

/-- Tokens of a fixed size, and lines of them that mention each other. -/
def tokens : Specification :=
  let decl name base arity size : Ast.Declaration := ⟨none, name, ⟨none, base, arity, size⟩, none⟩
  let number n : Ast.Value := .literal none n (toString n)
  ⟨none, [
    .struct ⟨none, "line", [decl "words" (.named "words") .scalar none,
      decl "next" (.named "line") .optional none], none⟩,
    .typedef ⟨none, "words", decl "words" (.named "token") .fixed (number 3), none⟩,
    .union ⟨none, "token", decl "tag" (.named "sort") .scalar none,
      [⟨none, [.reference none "ZERO"], decl "digit" (.builtin .int) .scalar none⟩,
       ⟨none, [.reference none "ONE"], decl "letters" (.builtin .opaqueBytes) .fixed (number 4)⟩],
      none, none⟩,
    .typedef ⟨none, "sort", decl "sort" (.named "kind") .scalar none, none⟩,
    .enum ⟨none, "kind", [⟨none, "ZERO", number 0, none⟩, ⟨none, "ONE", number 1, none⟩], none⟩]⟩

/-- A token takes eight bytes and three of them 24, although they stand behind the line. -/
theorem tokens_sizes : ∃ s, (analyze tokens).schema = some s ∧ ∀ size, s.definitions.Solves size →
    size "token" = .fixed 8 ∧ size "words" = .fixed 24 ∧ size "line" = .varying := by
  obtain ⟨s, hs, hsizes⟩ : ∃ s, (analyze tokens).schema = some s ∧
      ∀ name size, (name, size) ∈ [("token", .fixed 8), ("words", .fixed 24), ("line", .varying)] →
        ∃ t ∈ s.types, t.name = name ∧ t.size = size := by
    have hmap : (analyze tokens).schema.map (fun s => s.types.map fun t => (t.name, t.size)) =
        some [("line", .varying), ("words", .fixed 24), ("token", .fixed 8), ("sort", .fixed 4),
          ("kind", .fixed 4)] := by decide +kernel
    obtain ⟨s, hs, htypes⟩ := Option.map_eq_some_iff.1 hmap
    refine ⟨s, hs, fun name size hmem => ?_⟩
    have hmem' : (name, size) ∈ s.types.map fun t => (t.name, t.size) := by
      rw [htypes]
      simp only [mem_cons, not_mem_nil, or_false] at hmem ⊢
      tauto
    obtain ⟨t, ht, heq⟩ := mem_map.1 hmem'
    exact ⟨t, ht, congrArg Prod.fst heq, congrArg Prod.snd heq⟩
  obtain ⟨-, -, -, -, -, -, hunique, -⟩ := sizes_unique_solution hs
  refine ⟨s, hs, fun size hsolves => ?_⟩
  have hsize : ∀ name expected,
      (name, expected) ∈ [("token", .fixed 8), ("words", .fixed 24), ("line", .varying)] →
        size name = expected := by
    intro name expected hmem
    obtain ⟨t, ht, rfl, rfl⟩ := hsizes name expected hmem
    exact hunique size hsolves t ht
  exact ⟨hsize _ _ (by simp), hsize _ _ (by simp), hsize _ _ (by simp)⟩

end Xdr
