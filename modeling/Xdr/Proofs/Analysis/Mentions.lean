import Xdr.Proofs.Analysis.Resolution

/-!
# Resolved definitions and their mentions

The graph of a resolved specification has the mentions of the text for edges, and the canonical shape
of a declaration is what its typedefs lead to.
-/

namespace Xdr

open List

open Ast (Specification)

variable {spec : Specification} {d : Ast.Definition} {r : Definition} {α β : Type}
  {R : α → β → Prop} {name : String} {g : Graph}

namespace Graph

def mention (name : String) (g : Graph) (m : Decl) : Graph :=
  match m.base with
  | .named target => g.addEdge name target (m.arity = .optional)
  | .builtin _ => g

lemma mem_nodes_mention (name : String) (g : Graph) (m : Decl) (x : String)
    (hname : name ∈ g.nodes) : x ∈ (mention name g m).nodes ↔ x ∈ g.nodes ∨ m.base = .named x := by
  unfold mention
  cases m.base with
  | builtin b => simp
  | named target =>
    have hnodes : (g.addEdge name target (m.arity = .optional)).nodes =
        insertNew (insertNew g.nodes name) target := by
      unfold addEdge
      split <;> rfl
    simp only [hnodes, mem_insertNew, Base.named.injEq]
    constructor
    · rintro ((hx | rfl) | rfl)
      · exact .inl hx
      · exact .inl hname
      · exact .inr rfl
    · rintro (hx | rfl)
      · exact .inl (.inl hx)
      · exact .inr rfl

lemma nodup_nodes_mention (name : String) (h : g.nodes.Nodup) (m : Decl) :
    (mention name g m).nodes.Nodup := by
  unfold mention
  split
  · have hnodup := nodup_insertNew (nodup_insertNew h name) ‹String›
    unfold addEdge
    split <;> exact hnodup
  · exact h

lemma nodup_edges_mention (name : String) (h : g.edges.Nodup) (m : Decl) :
    (mention name g m).edges.Nodup := by
  unfold mention
  split
  · unfold addEdge
    split
    · exact h
    · exact nodup_insertNew h _
  · exact h

lemma mem_edges_mention (name : String) (g : Graph) (m : Decl) (a b : String) :
    (a, b) ∈ (mention name g m).edges ↔
      (a, b) ∈ g.edges ∨ a = name ∧ m.base = .named b ∧ m.arity ≠ .optional := by
  unfold mention
  cases m.base with
  | builtin c => simp
  | named target =>
    by_cases harity : m.arity = .optional
    · simp [addEdge, harity, addNode]
    · simp [addEdge, harity, addNode, mem_insertNew, eq_comm]

lemma foldl_mention (name : String) (ms : List Decl) :
    ∀ g : Graph, name ∈ g.nodes → g.nodes.Nodup →
      (ms.foldl (mention name) g).nodes.Nodup ∧
      (∀ x, x ∈ (ms.foldl (mention name) g).nodes ↔ x ∈ g.nodes ∨ ∃ m ∈ ms, m.base = .named x) ∧
      ∀ a b, (a, b) ∈ (ms.foldl (mention name) g).edges ↔
        (a, b) ∈ g.edges ∨ a = name ∧ ∃ m ∈ ms, m.base = .named b ∧ m.arity ≠ .optional := by
  induction ms with
  | nil =>
    intro g hname hnodup
    exact ⟨hnodup, by simp, by simp⟩
  | cons m rest ih =>
    intro g hname hnodup
    obtain ⟨hnd, hnodes, hedges⟩ := ih (mention name g m)
      ((mem_nodes_mention name g m name hname).2 (.inl hname)) (nodup_nodes_mention name hnodup m)
    rw [foldl_cons]
    refine ⟨hnd, fun x => ?_, fun a b => ?_⟩
    · rw [hnodes, mem_nodes_mention name g m x hname, exists_mem_cons_iff, or_assoc]
    · rw [hedges, mem_edges_mention, exists_mem_cons_iff]
      tauto

end Graph

lemma Definitions.graph_spec (defs : Definitions) :
    defs.graph.nodes.Nodup ∧
      (∀ x, x ∈ defs.graph.nodes ↔
        ∃ d ∈ defs, d.name = x ∨ ∃ m ∈ d.members, m.base = .named x) ∧
      ∀ a b, defs.graph.Holds a b ↔
        ∃ d ∈ defs, d.name = a ∧ ∃ m ∈ d.members, m.base = .named b ∧ m.arity ≠ .optional := by
  have hfold : ∀ (ds : List Definition) (g : Graph), g.nodes.Nodup →
      (ds.foldl Graph.addDefinition g).nodes.Nodup ∧
      (∀ x, x ∈ (ds.foldl Graph.addDefinition g).nodes ↔
        x ∈ g.nodes ∨ ∃ d ∈ ds, d.name = x ∨ ∃ m ∈ d.members, m.base = .named x) ∧
      ∀ a b, (a, b) ∈ (ds.foldl Graph.addDefinition g).edges ↔ (a, b) ∈ g.edges ∨
        ∃ d ∈ ds, d.name = a ∧ ∃ m ∈ d.members, m.base = .named b ∧ m.arity ≠ .optional := by
    intro ds
    induction ds with
    | nil =>
      intro g hnodup
      exact ⟨hnodup, by simp, by simp⟩
    | cons d rest ih =>
      intro g hnodup
      have hself : d.name ∈ (g.addNode d.name).nodes := by simp [Graph.addNode, Graph.mem_insertNew]
      obtain ⟨hnd₁, hnodes₁, hedges₁⟩ := Graph.foldl_mention d.name d.members (g.addNode d.name)
        hself (Graph.nodup_insertNew hnodup d.name)
      obtain ⟨hnd, hnodes, hedges⟩ := ih (g.addDefinition d) hnd₁
      rw [foldl_cons]
      refine ⟨hnd, fun x => ?_, fun a b => ?_⟩
      · have hone : x ∈ (g.addDefinition d).nodes ↔
            x ∈ (g.addNode d.name).nodes ∨ ∃ m ∈ d.members, m.base = .named x := hnodes₁ x
        rw [hnodes, hone, exists_mem_cons_iff, Graph.addNode, Graph.mem_insertNew, eq_comm,
          or_assoc, or_assoc, or_assoc]
      · have hone : (a, b) ∈ (g.addDefinition d).edges ↔ (a, b) ∈ g.edges ∨
            a = d.name ∧ ∃ m ∈ d.members, m.base = .named b ∧ m.arity ≠ .optional := hedges₁ a b
        rw [hedges, hone, exists_mem_cons_iff, eq_comm (a := a), or_assoc]
  obtain ⟨hnodup, hnodes, hedges⟩ := hfold defs .empty nodup_nil
  refine ⟨hnodup, fun x => ?_, fun a b => ?_⟩
  · rw [Definitions.graph, hnodes]
    simp [Graph.empty]
  · rw [Graph.holds_iff, Definitions.graph, hedges]
    simp [Graph.empty]

lemma Definitions.graph_edges_nodup (defs : Definitions) : defs.graph.edges.Nodup := by
  have hmention : ∀ (name : String) (ms : List Decl) (g : Graph), g.edges.Nodup →
      (ms.foldl (Graph.mention name) g).edges.Nodup := by
    intro name ms
    induction ms with
    | nil => exact fun _ hg => hg
    | cons m rest ih => exact fun g hg => ih _ (Graph.nodup_edges_mention name hg m)
  have hfold : ∀ (ds : List Definition) (g : Graph), g.edges.Nodup →
      (ds.foldl Graph.addDefinition g).edges.Nodup := by
    intro ds
    induction ds with
    | nil => exact fun _ hg => hg
    | cons d rest ih => exact fun g hg => ih _ (hmention d.name d.members (g.addNode d.name) hg)
  exact hfold defs .empty nodup_nil

lemma Definitions.graph_closed (defs : Definitions) : defs.graph.Closed := by
  obtain ⟨hnodup, hnodes, hedges⟩ := defs.graph_spec
  refine ⟨hnodup, defs.graph_edges_nodup, fun a b h => ?_, fun a b h => ?_⟩
  · obtain ⟨d, hd, rfl, -⟩ := (hedges a b).1 h
    exact (hnodes _).2 ⟨d, hd, .inl rfl⟩
  · obtain ⟨d, hd, -, m, hm, hbase, -⟩ := (hedges a b).1 h
    exact (hnodes _).2 ⟨d, hd, .inr ⟨m, hm, hbase⟩⟩

lemma definitions_names_nodup (h : DistinctNames spec) :
    (spec.definitions.map (·.name)).Nodup := by
  have hsub : ∀ ds : List Ast.Definition,
      (ds.map (·.name)).Sublist ((ds.flatMap Bindings.ofDefinition).map (·.name)) := by
    intro ds
    induction ds with
    | nil => simp
    | cons d rest ih =>
      rw [map_cons, flatMap_cons, map_append]
      have hd : [d.name].Sublist ((Bindings.ofDefinition d).map (·.name)) := by
        cases d <;> simp [Bindings.ofDefinition, Ast.Definition.name]
      exact hd.append ih
  exact h.names_nodup.sublist (hsub spec.definitions)

lemma definesType_iff (name : String) :
    spec.DefinesType name ↔ ∃ d ∈ spec.definitions, d.kind.isType ∧ d.name = name := by
  constructor
  · rintro ⟨b, hb, rfl, htype⟩
    obtain ⟨d, hd, hb⟩ := mem_flatMap.1 hb
    cases d with
    | enum d =>
      rcases mem_cons.1 hb with rfl | hb
      · exact ⟨_, hd, rfl, rfl⟩
      · obtain ⟨x, -, rfl⟩ := mem_map.1 hb
        cases htype
    | _ =>
      have hb' := mem_singleton.1 hb
      subst hb'
      exact ⟨_, hd, htype, rfl⟩
  · rintro ⟨d, hd, htype, rfl⟩
    cases d with
    | const d => cases htype
    | enum d => exact ⟨_, mem_flatMap.2 ⟨_, hd, (.head _) ..⟩, rfl, rfl⟩
    | _ => exact ⟨_, mem_flatMap.2 ⟨_, hd, mem_singleton.2 rfl⟩, rfl, rfl⟩

lemma forall₂_toList {a : Option α} {b : Option β} (h : Option.Rel R a b) :
    List.Forall₂ R a.toList b.toList := by
  cases h with
  | none => exact .nil
  | some hab => exact .cons hab .nil

lemma Resolves.members (h : Resolves spec d r) :
    List.Forall₂ (ResolvesDecl spec) d.declarations r.members := by
  cases h with
  | enum => exact .nil
  | struct _ hfields => exact hfields
  | typedef _ hdecl => exact .cons hdecl .nil
  | union _ hdisc harms hfall =>
    refine .cons hdisc (rel_append ?_ (forall₂_toList hfall))
    rw [forall₂_map_left_iff, forall₂_map_right_iff]
    exact harms.imp fun a r har => har.decl

structure Elaborated (spec : Specification) (defs : Definitions) : Prop where
  names : DistinctNames spec
  resolves : List.Forall₂ (Resolves spec) (spec.definitions.filter (·.kind.isType)) defs
  plain : ∀ d ∈ spec.definitions, ∀ m ∈ d.plainDeclarations, spec.Declares false m
  arms : ∀ u, .union u ∈ spec.definitions → ∀ m ∈ u.armDeclarations, spec.Declares true m

lemma exists_of_forall₂_left {xs : List α} {ys : List β} (h : List.Forall₂ R xs ys) {x : α}
    (hx : x ∈ xs) : ∃ y ∈ ys, R x y := by
  induction h with
  | nil => cases hx
  | cons hab _ ih =>
    rcases mem_cons.1 hx with rfl | hx
    · exact ⟨_, (.head _) .., hab⟩
    · obtain ⟨y, hy, hxy⟩ := ih hx
      exact ⟨y, .tail _ hy, hxy⟩

lemma exists_of_forall₂_right {xs : List α} {ys : List β} (h : List.Forall₂ R xs ys) {y : β}
    (hy : y ∈ ys) : ∃ x ∈ xs, R x y :=
  exists_of_forall₂_left (R := fun y x => R x y) h.flip hy

namespace Elaborated

variable {spec : Specification} {defs : Definitions} (h : Elaborated spec defs)
include h

lemma definition_eq {e : Ast.Definition} (hd : d ∈ spec.definitions) (he : e ∈ spec.definitions)
    (hname : d.name = e.name) : d = e :=
  inj_on_of_nodup_map (definitions_names_nodup h.names) hd he hname

lemma exists_resolved (hd : d ∈ spec.definitions) (htype : d.kind.isType) :
    ∃ r ∈ defs, Resolves spec d r :=
  exists_of_forall₂_left h.resolves (mem_filter.2 ⟨hd, htype⟩)

lemma exists_written (hr : r ∈ defs) :
    ∃ d ∈ spec.definitions, d.kind.isType ∧ Resolves spec d r := by
  obtain ⟨d, hd, hdr⟩ := exists_of_forall₂_right h.resolves hr
  obtain ⟨hmem, htype⟩ := mem_filter.1 hd
  exact ⟨d, hmem, htype, hdr⟩

lemma defs_names_nodup : (defs.map (·.name)).Nodup := by
  have hnames : ∀ {ds rs}, List.Forall₂ (Resolves spec) ds rs →
      rs.map (·.name) = ds.map (·.name) := by
    intro ds rs hres
    induction hres with
    | nil => rfl
    | cons hdr _ ih => rw [map_cons, map_cons, ih, hdr.name_eq]
  rw [hnames h.resolves]
  exact (definitions_names_nodup h.names).sublist (filter_sublist.map _)

lemma find?_iff (name : String) (r : Definition) :
    defs.find? name = some r ↔ r ∈ defs ∧ r.name = name := by
  constructor
  · intro hfind
    exact ⟨mem_of_find?_eq_some hfind, by simpa using find?_some hfind⟩
  · rintro ⟨hr, rfl⟩
    cases hfind : defs.find? r.name with
    | none =>
      have := find?_eq_none.1 hfind r hr
      simp at this
    | some q =>
      have hq := mem_of_find?_eq_some hfind
      have hname : q.name = r.name := by simpa using find?_some hfind
      rw [inj_on_of_nodup_map h.defs_names_nodup hq hr hname]

lemma find?_resolved (hd : d ∈ spec.definitions) (htype : d.kind.isType) :
    ∃ r, defs.find? d.name = some r ∧ Resolves spec d r := by
  obtain ⟨r, hr, hdr⟩ := h.exists_resolved hd htype
  exact ⟨r, (h.find?_iff _ r).2 ⟨hr, hdr.name_eq⟩, hdr⟩

lemma find?_written (hfind : defs.find? name = some r) :
    ∃ d ∈ spec.definitions, d.name = name ∧ Resolves spec d r := by
  obtain ⟨hr, hname⟩ := (h.find?_iff name r).1 hfind
  obtain ⟨d, hd, -, hdr⟩ := h.exists_written hr
  exact ⟨d, hd, by rw [← hdr.name_eq, hname], hdr⟩

lemma mentionable (hd : d ∈ spec.definitions) {m : Ast.Declaration} (hm : m ∈ d.declarations) :
    spec.Mentionable true m.ty.base := by
  have hweaken : ∀ b : Ast.Base, spec.Mentionable false b → spec.Mentionable true b := by
    intro b hb
    cases b with
    | builtin b => exact ⟨hb.1, fun _ => rfl⟩
    | named name | inlineBody _ _ => exact hb
  cases d with
  | const d | enum d => cases hm
  | struct d | typedef d => exact hweaken _ (h.plain _ hd m hm).1
  | union d =>
    rcases mem_cons.1 hm with rfl | hm
    · exact hweaken _ (h.plain _ hd _ (by simp [Ast.Definition.plainDeclarations])).1
    · exact (h.arms d hd m hm).1

lemma exists_defined {d : Definition} (hd : d ∈ defs) {m : Decl} (hm : m ∈ d.members)
    (hbase : m.base = .named name) : ∃ r, defs.find? name = some r := by
  obtain ⟨a, ha, -, hres⟩ := h.exists_written hd
  obtain ⟨w, hw, hwm⟩ := exists_of_forall₂_right hres.members hm
  have hmention := h.mentionable ha hw
  rw [hwm.base, hbase] at hmention
  obtain ⟨e, he, htype, rfl⟩ := (definesType_iff name).1 hmention
  obtain ⟨r, hr, -⟩ := h.find?_resolved he htype
  exact ⟨r, hr⟩

lemma graph_holds_iff (a b : String) : defs.graph.Holds a b ↔ spec.HoldsByValue a b := by
  rw [defs.graph_spec.2.2]
  constructor
  · rintro ⟨r, hr, rfl, m, hm, hbase, harity⟩
    obtain ⟨d, hd, -, hdr⟩ := h.exists_written hr
    obtain ⟨w, hw, hwm⟩ := exists_of_forall₂_right hdr.members hm
    exact ⟨d, hd, hdr.name_eq.symm, w, hw, by rw [hwm.base, hbase]; rfl, hwm.arity ▸ harity⟩
  · rintro ⟨d, hd, rfl, w, hw, hbase, harity⟩
    have htype : d.kind.isType := by
      cases d with
      | const d => cases hw
      | _ => rfl
    obtain ⟨r, hr, hdr⟩ := h.exists_resolved hd htype
    obtain ⟨m, hm, hwm⟩ := exists_of_forall₂_left hdr.members hw
    refine ⟨r, hr, hdr.name_eq, m, hm, Base.written_injective ?_, hwm.arity ▸ harity⟩
    rw [← hwm.base, hbase]
    rfl

lemma graph_acyclic_iff :
    defs.graph.Acyclic ↔ ∀ name, ¬ Relation.TransGen spec.HoldsByValue name name := by
  have heq : defs.graph.Holds = spec.HoldsByValue := by
    funext a b
    exact propext (h.graph_holds_iff a b)
  rw [Graph.Acyclic, heq]

end Elaborated

structure Ranking (defs : Definitions) (rank : String → Nat) : Prop where
  decreases : ∀ a b, defs.graph.Holds a b → rank b < rank a
  bounded : ∀ name, rank name ≤ defs.length

structure TypeOrder (defs : Definitions) (order : List String) : Prop where
  nodup : order.Nodup
  mem_iff : ∀ x, x ∈ order ↔ ∃ d ∈ defs, d.name = x
  ordered : defs.graph.Ordered order

lemma TypeOrder.ranking {defs : Definitions} {order : List String} (h : TypeOrder defs order) :
    Ranking defs order.idxOf where
  decreases := by
    intro a b hab
    have ha : a ∈ order := by
      obtain ⟨d, hd, hname, -⟩ := (defs.graph_spec.2.2 a b).1 hab
      exact (h.mem_iff a).2 ⟨d, hd, hname⟩
    exact h.ordered.idxOf_lt ha hab
  bounded := by
    intro name
    have hsub : order ⊆ defs.map (·.name) := by
      intro x hx
      obtain ⟨d, hd, rfl⟩ := (h.mem_iff x).1 hx
      exact mem_map_of_mem hd
    have hlength := (h.nodup.subperm hsub).length_le
    rw [length_map] at hlength
    exact idxOf_le_length.trans hlength

lemma Ast.Specification.Canonical.unique (hnames : DistinctNames spec) {b b₁ b₂ : Ast.Base}
    {a a₁ a₂ : Arity} (h₁ : spec.Canonical b a b₁ a₁) (h₂ : spec.Canonical b a b₂ a₂) :
    b₁ = b₂ ∧ a₁ = a₂ := by
  induction h₁ with
  | synonym hd _ ih =>
    rename_i d _ _ _
    generalize hname : Ast.Base.named d.name = base at h₂
    cases h₂ with
    | synonym he h₂ =>
      injection hname with hname
      have hde := inj_on_of_nodup_map (definitions_names_nodup hnames) hd he hname
      cases hde
      exact ih h₂
    | repeated _ hne => exact absurd rfl hne
    | plain _ hno => exact absurd hname.symm (hno d hd)
  | repeated base hne =>
    cases h₂ with
    | synonym => exact absurd rfl hne
    | repeated => exact ⟨rfl, rfl⟩
    | plain => exact absurd rfl hne
  | plain base hno =>
    cases h₂ with
    | synonym hd _ => exact absurd rfl (hno _ hd)
    | repeated | plain => exact ⟨rfl, rfl⟩

namespace Elaborated

variable {spec : Specification} {defs : Definitions} (h : Elaborated spec defs)
include h

lemma exists_order (hacyclic : defs.graph.Acyclic) :
    ∃ order, defs.graph.topologicalOrder = some order ∧ TypeOrder defs order := by
  obtain ⟨order, horder, hnodup, hmem, hordered⟩ :=
    Graph.exists_topologicalOrder hacyclic defs.graph_closed
  refine ⟨order, horder, hnodup, fun x => ?_, hordered⟩
  rw [hmem, defs.graph_spec.2.1]
  constructor
  · rintro ⟨d, hd, rfl | ⟨m, hm, hbase⟩⟩
    · exact ⟨d, hd, rfl⟩
    · obtain ⟨r, hr⟩ := h.exists_defined hd hm hbase
      exact ⟨r, (h.find?_iff x r).1 hr⟩
  · rintro ⟨d, hd, rfl⟩
    exact ⟨d, hd, .inl rfl⟩

lemma follow_canonical {rank : String → Nat} (hrank : Ranking defs rank) (n : Nat) :
    ∀ s : Shape, (s.arity = .scalar → ∀ name, s.base = .named name → rank name < n) →
      spec.Canonical s.base.written s.arity (defs.follow n s).base.written (defs.follow n s).arity := by
  have hrest : ∀ s : Shape, (s.arity = .scalar → ∀ name, s.base ≠ .named name) →
      spec.Canonical s.base.written s.arity s.base.written s.arity := by
    intro s hs
    by_cases harity : s.arity = .scalar
    · rw [harity]
      refine .plain _ fun d _ => ?_
      cases hbase : s.base with
      | builtin b => simp [Base.written]
      | named name => exact absurd hbase (hs harity name)
    · exact .repeated _ harity
  induction n with
  | zero =>
    intro s hs
    exact hrest s fun harity name hbase => Nat.not_lt_zero _ (hs harity name hbase)
  | succ n ih =>
    intro s hs
    by_cases hscalar : s.arity = .scalar
    · cases hbase : s.base with
      | builtin b =>
        have heq : defs.follow (n + 1) s = s := by simp [Definitions.follow, hscalar, hbase]
        rw [heq, ← hbase]
        exact hrest s fun _ name => by simp [hbase]
      | named name =>
        by_cases htypedef : ∃ t, defs.find? name = some (.typedef t)
        · obtain ⟨t, ht⟩ := htypedef
          have heq : defs.follow (n + 1) s = defs.follow n t.decl.toShape := by
            simp [Definitions.follow, hscalar, hbase, ht]
          obtain ⟨d, hd, rfl, hdt⟩ := h.find?_written ht
          cases hdt with
          | typedef hname hdecl =>
            rename_i d
            have hstep := ih t.decl.toShape fun harity target htarget => by
              have hholds : defs.graph.Holds d.name target :=
                (defs.graph_spec.2.2 _ _).2 ⟨.typedef t, ((h.find?_iff _ _).1 ht).1, hname, t.decl,
                  by simp [Definition.members], htarget, by simp [harity]⟩
              have hlt := hrank.decreases _ _ hholds
              have hbound := hs hscalar d.name hbase
              omega
            rw [heq, hscalar]
            refine .synonym hd ?_
            rw [hdecl.base, ← hdecl.arity]
            exact hstep
        · have heq : defs.follow (n + 1) s = .scalar (.named name) := by
            simp only [Definitions.follow, hscalar, hbase]
            split
            · rename_i t ht
              exact absurd ⟨t, ht⟩ htypedef
            · rfl
          rw [heq, hscalar]
          refine .plain _ fun d hd heqname => ?_
          injection heqname with heqname
          obtain ⟨r, hr, hdr⟩ := h.find?_resolved hd rfl
          cases hdr with
          | typedef =>
            rw [heqname] at htypedef
            exact htypedef ⟨_, hr⟩
    · have heq : defs.follow (n + 1) s = s := by
        unfold Definitions.follow
        split
        · exact absurd ‹_› hscalar
        · rfl
      rw [heq]
      exact hrest s fun harity => absurd harity hscalar

lemma canonical_canonical (hacyclic : defs.graph.Acyclic) (s : Shape) :
    spec.Canonical s.base.written s.arity (defs.canonical s).base.written (defs.canonical s).arity := by
  obtain ⟨order, -, horder⟩ := h.exists_order hacyclic
  refine h.follow_canonical horder.ranking _ s fun _ name _ => ?_
  exact Nat.lt_succ_of_le (horder.ranking.bounded name)

omit h in
lemma isArray_iff (s : Shape) :
    s.isArray ↔ Specification.IsElementArray s.base.written s.arity := by
  obtain ⟨base, arity, length⟩ := s
  cases base with
  | builtin b =>
    cases b <;> simp [Shape.isArray, Specification.IsElementArray, Base.written, Base.isBytes,
      Builtin.isBytes]
  | named name => simp [Shape.isArray, Specification.IsElementArray, Base.written, Base.isBytes]

lemma nestedArrays_clean_iff (hacyclic : defs.graph.Acyclic) :
    anyError (defs.nestedArrays spec) = false ↔
      ∀ d ∈ spec.definitions, ∀ m ∈ d.declarations, spec.FlatArray m := by
  have hone : ∀ element, (defs.canonical (.scalar (.named element))).isArray ↔
      ∃ base arity, spec.Canonical (.named element) .scalar base arity ∧
        Specification.IsElementArray base arity := by
    intro element
    have hcanon := h.canonical_canonical hacyclic (.scalar (.named element))
    rw [isArray_iff]
    constructor
    · exact fun harray => ⟨_, _, hcanon, harray⟩
    · rintro ⟨base, arity, hother, harray⟩
      obtain ⟨rfl, rfl⟩ := hother.unique h.names hcanon
      exact harray
  rw [anyError_eq_false_iff]
  constructor
  · intro hclean d hd m hm element hbase harity base arity hcanon harray
    have hmem : (⟨.nestedArray element, m.ty.loc <|> m.loc⟩ : Finding) ∈ defs.nestedArrays spec := by
      refine mem_filterMap.2 ⟨m, mem_flatMap.2 ⟨d, hd, hm⟩, ?_⟩
      simp [hbase, harity, (hone element).2 ⟨base, arity, hcanon, harray⟩]
    have := hclean _ hmem
    cases this
  · intro hflat f hf
    obtain ⟨m, hm, hf⟩ := mem_filterMap.1 hf
    obtain ⟨d, hd, hm⟩ := mem_flatMap.1 hm
    split at hf
    · rename_i element hbase
      split at hf
      · rename_i hcond
        simp only [Bool.and_eq_true, Bool.or_eq_true, decide_eq_true_eq] at hcond
        obtain ⟨base, arity, hcanon, harray⟩ := (hone element).1 hcond.2
        exact absurd harray (hflat d hd m hm element hbase hcond.1 base arity hcanon)
      · cases hf
    · cases hf

end Elaborated

end Xdr
