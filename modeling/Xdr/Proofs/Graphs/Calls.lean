import Xdr.Proofs.Graphs.Search

/-!
# Orders of graphs made by calls

`topologicalOrder` lists every node of an acyclic graph once, behind all that it holds by value, and
gives nothing for a graph with a cycle.
-/

namespace Xdr.Graph

open List

variable {g : Graph} {placed order : List String} {current : String}

def waiting (g : Graph) (placed : List String) : Waits :=
  g.nodes.map fun node => (node, ((g.held node).filter (!placed.contains ·)).length)

def freed (g : Graph) (placed : List String) (current : String) : List String :=
  g.nodes.filter fun node =>
    (g.held node).contains current && (g.held node).all placed.contains

lemma waiting_nil (g : Graph) : g.waiting [] = g.waits := by
  simp [waiting, waits]

lemma mem_freed (g : Graph) (placed : List String) (current x : String) :
    x ∈ g.freed placed current ↔
      x ∈ g.nodes ∧ g.Holds x current ∧ ∀ y, g.Holds x y → y ∈ placed := by
  simp [freed, Holds]

lemma Closed.held_nodup (h : g.Closed) (node : String) : (g.held node).Nodup := by
  refine (h.edges_nodup.filter _).map_on ?_
  rintro ⟨a, b⟩ hab ⟨c, d⟩ hcd hbd
  simp only [mem_filter, beq_iff_eq] at hab hcd
  simp only at hbd
  rw [hab.2, hcd.2, hbd]

lemma less_map (nodes : List String) (f : String → Nat) (node : String) :
    Waits.less (nodes.map fun x => (x, f x)) node =
      nodes.map fun x => (x, if x = node then f x - 1 else f x) := by
  simp only [Waits.less, map_map]
  refine map_congr_left fun x _ => ?_
  by_cases h : x = node <;> simp [h]

lemma foldl_release {nodes : List String} :
    ∀ (released : List String) (f : String → Nat) (queue : List String), released.Nodup →
      released ⊆ nodes →
      released.foldl release (nodes.map fun x => (x, f x), queue) =
        (nodes.map fun x => (x, if x ∈ released then f x - 1 else f x),
          queue ++ released.filter fun x => f x - 1 = 0) := by
  intro released
  induction released with
  | nil => simp
  | cons node rest ih =>
    intro f queue hnodup hsub
    obtain ⟨hnew, hrest⟩ := nodup_cons.1 hnodup
    obtain ⟨hnode, hsub⟩ := cons_subset.1 hsub
    have hlookup := lookup_graph (fun x => if x = node then f x - 1 else f x) hnode
    have hstep : release (nodes.map fun x => (x, f x), queue) node =
        (nodes.map fun x => (x, if x = node then f x - 1 else f x),
          if f node - 1 = 0 then queue ++ [node] else queue) := by
      simp [release, less_map, hlookup]
    rw [foldl_cons, hstep, ih _ _ hrest hsub, Prod.mk.injEq]
    constructor
    · refine map_congr_left fun x _ => ?_
      by_cases hx : x = node
      · simp [hx, hnew]
      · simp [hx]
    · have hfilter : (rest.filter fun x => decide ((if x = node then f x - 1 else f x) - 1 = 0)) =
          rest.filter fun x => decide (f x - 1 = 0) := by
        refine filter_congr fun x hx => ?_
        have hne : x ≠ node := fun h => hnew (h ▸ hx)
        rw [if_neg hne]
      rw [hfilter, filter_cons]
      by_cases hzero : f node - 1 = 0 <;> simp [hzero]

lemma Closed.length_waiting (h : g.Closed) (hnew : current ∉ placed) (node : String) :
    ((g.held node).filter (!(placed ++ [current]).contains ·)).length =
      if current ∈ g.held node then ((g.held node).filter (!placed.contains ·)).length - 1
      else ((g.held node).filter (!placed.contains ·)).length := by
  have hsplit : (g.held node).filter (!(placed ++ [current]).contains ·) =
      ((g.held node).filter (!placed.contains ·)).erase current := by
    rw [((h.held_nodup node).filter _).erase_eq_filter, filter_filter]
    refine filter_congr fun x _ => ?_
    by_cases hx : x = current <;> simp [hx]
  have hmem : current ∈ (g.held node).filter (!placed.contains ·) ↔ current ∈ g.held node := by
    simp [mem_filter, hnew]
  simp only [hsplit, length_erase, hmem]

lemma Closed.release_holders (h : g.Closed) (hnew : current ∉ placed) (queue : List String) :
    (g.holders current).foldl release (g.waiting placed, queue) =
      (g.waiting (placed ++ [current]), queue ++ g.freed (placed ++ [current]) current) := by
  have hnodup : (g.holders current).Nodup := h.nodup.filter _
  rw [waiting, foldl_release _ _ _ hnodup (filter_subset_self _), Prod.mk.injEq]
  have hholder : ∀ x ∈ g.nodes, (x ∈ g.holders current ↔ current ∈ g.held x) := by
    intro x hx
    simp [holders, hx]
  constructor
  · refine map_congr_left fun x hx => ?_
    simp only [h.length_waiting hnew, hholder x hx]
  · rw [holders, freed, filter_filter]
    congr 1
    refine filter_congr fun x _ => ?_
    by_cases hx : current ∈ g.held x
    · have hlength := h.length_waiting hnew x
      rw [if_pos hx] at hlength
      rw [← hlength, Bool.eq_iff_iff]
      simp [hx, filter_eq_nil_iff, all_eq_true, or_iff_not_imp_left]
    · simp [hx]

def Ordered (g : Graph) (names : List String) : Prop :=
  ∀ before node behind, names = before ++ node :: behind → ∀ y, g.Holds node y → y ∈ before

/-- Where the placing stands: what is placed is in order, what waits can be placed, and nothing else
that is not placed can. -/
structure Placing (g : Graph) (queue placed : List String) : Prop where
  nodup : (placed ++ queue).Nodup
  subset : placed ++ queue ⊆ g.nodes
  ordered : g.Ordered placed
  ready : ∀ x ∈ queue, ∀ y, g.Holds x y → y ∈ placed
  complete : ∀ x ∈ g.nodes, (∀ y, g.Holds x y → y ∈ placed) → x ∈ placed ++ queue

lemma Ordered.concat {names : List String} {node : String} (h : g.Ordered names)
    (hnode : ∀ y, g.Holds node y → y ∈ names) : g.Ordered (names ++ [node]) := by
  intro before x behind hsplit y hy
  rcases eq_nil_or_concat behind with rfl | ⟨init, last, rfl⟩
  · obtain ⟨rfl, hlast⟩ := append_inj' hsplit rfl
    simp only [List.cons.injEq, and_true] at hlast
    exact hnode y (hlast ▸ hy)
  · have hsplit' : names ++ [node] = (before ++ x :: init) ++ [last] := by
      rw [hsplit]
      simp
    obtain ⟨hinit, _⟩ := append_inj' hsplit' rfl
    exact h before x init hinit y hy

lemma Placing.step {queue : List String} (hclosed : g.Closed)
    (h : g.Placing (current :: queue) placed) :
    g.Placing (queue ++ g.freed (placed ++ [current]) current) (placed ++ [current]) where
  nodup := by
    have hold : (placed ++ [current] ++ queue).Nodup := by simpa using h.nodup
    rw [← append_assoc, nodup_append]
    refine ⟨hold, hclosed.nodup.filter _, ?_⟩
    rintro a ha b hb rfl
    obtain ⟨_, hcurrent, _⟩ := (mem_freed g _ current a).1 hb
    -- What is placed or waits holds only what was placed before, and the current name was not.
    have hbefore : ∀ y, g.Holds a y → y ∈ placed := by
      rw [append_assoc, singleton_append, mem_append] at ha
      rcases ha with ha | ha
      · obtain ⟨before, behind, hsplit⟩ := append_of_mem ha
        intro y hy
        rw [hsplit]
        exact mem_append_left _ (h.ordered before a behind hsplit y hy)
      · exact h.ready a ha
    have hplaced := hbefore current hcurrent
    have hdisjoint := (nodup_append.1 h.nodup).2.2
    exact hdisjoint current hplaced current (.head _) rfl
  subset := by
    intro x hx
    rw [← append_assoc, mem_append] at hx
    rcases hx with hx | hx
    · refine h.subset ?_
      simpa using hx
    · exact ((mem_freed g _ current x).1 hx).1
  ordered := h.ordered.concat (h.ready current (.head _))
  ready := by
    intro x hx y hy
    rw [mem_append] at hx
    rcases hx with hx | hx
    · exact mem_append_left _ (h.ready x (.tail _ hx) y hy)
    · exact ((mem_freed g _ current x).1 hx).2.2 y hy
  complete := by
    intro x hx hheld
    rw [← append_assoc, mem_append]
    by_cases hcurrent : g.Holds x current
    · exact .inr ((mem_freed g _ current x).2 ⟨hx, hcurrent, hheld⟩)
    · left
      have hbefore : ∀ y, g.Holds x y → y ∈ placed := by
        intro y hy
        have hmem := hheld y hy
        rw [mem_append, mem_singleton] at hmem
        refine hmem.resolve_right ?_
        rintro rfl
        exact hcurrent hy
      simpa using h.complete x hx hbefore

lemma exists_minimal (hacyclic : g.Acyclic) (hclosed : g.Closed) {x : String} (hx : x ∈ g.nodes)
    (hnew : x ∉ placed) : ∃ z ∈ g.nodes, z ∉ placed ∧ ∀ y, g.Holds z y → y ∈ placed := by
  by_contra hnone
  push Not at hnone
  -- Otherwise one can go on for ever: a walk longer than there are nodes.
  have hwalk : ∀ n : Nat, ∃ walk : List String, walk.length = n + 1 ∧ walk.Nodup ∧
      walk ⊆ g.nodes ∧ ∃ z rest, walk = z :: rest ∧ z ∉ placed ∧
        ∀ y ∈ rest, Relation.TransGen g.Holds y z := by
    intro n
    induction n with
    | zero => exact ⟨[x], rfl, nodup_singleton x, by simpa using hx, x, [], rfl, hnew, by simp⟩
    | succ n ih =>
      obtain ⟨walk, hlen, hnodup, hsub, z, rest, rfl, hz, hreach⟩ := ih
      obtain ⟨y, hy, hynew⟩ := hnone z (hsub (.head _)) hz
      have hall : ∀ w ∈ z :: rest, Relation.TransGen g.Holds w y := by
        intro w hw
        rcases mem_cons.1 hw with rfl | hw
        · exact .single hy
        · exact .tail (hreach w hw) hy
      refine ⟨y :: z :: rest, by simp [hlen], ?_, ?_, y, z :: rest, rfl, hynew, hall⟩
      · rw [nodup_cons]
        exact ⟨fun hmem => hacyclic y (hall y hmem), hnodup⟩
      · exact cons_subset.2 ⟨hclosed.target_mem _ _ hy, hsub⟩
  obtain ⟨walk, hlen, hnodup, hsub, _⟩ := hwalk g.nodes.length
  have hle := (hnodup.subperm hsub).length_le
  omega

lemma Placing.place (hclosed : g.Closed) (n : Nat) :
    ∀ (queue placed : List String), g.Placing queue placed →
      ∃ rest, g.Placing rest (g.place n (g.waiting placed) queue placed) ∧
        (rest = [] ∨ (g.place n (g.waiting placed) queue placed).length = n + placed.length) := by
  induction n with
  | zero =>
    intro queue placed h
    exact ⟨queue, h, .inr (by simp [Graph.place])⟩
  | succ n ih =>
    intro queue placed h
    cases queue with
    | nil => exact ⟨[], h, .inl rfl⟩
    | cons current queue =>
      have hnew : current ∉ placed := by
        intro hmem
        exact (nodup_append.1 h.nodup).2.2 current hmem current (.head _) rfl
      have hplace : g.place (n + 1) (g.waiting placed) (current :: queue) placed =
          g.place n (g.waiting (placed ++ [current]))
            (queue ++ g.freed (placed ++ [current]) current) (placed ++ [current]) := by
        simp only [Graph.place, hclosed.release_holders hnew]
      rw [hplace]
      obtain ⟨rest, hrest, hend⟩ := ih _ _ (h.step hclosed)
      refine ⟨rest, hrest, hend.imp_right fun hlen => ?_⟩
      rw [hlen, length_append, length_singleton]
      omega

lemma placing_start (hclosed : g.Closed) :
    g.Placing ((g.waits.filter fun w => w.2 = 0).map (·.1)) [] := by
  have hstart : (g.waits.filter fun w => w.2 = 0).map (·.1) =
      g.nodes.filter fun node => (g.held node).isEmpty := by
    rw [waits, filter_map, map_map]
    refine (map_id' _).trans (filter_congr fun x _ => ?_)
    rw [Bool.eq_iff_iff]
    simp
  rw [hstart]
  refine ⟨?_, ?_, ?_, ?_, ?_⟩
  · simpa using hclosed.nodup.filter _
  · simp
  · intro before node behind hsplit
    simp at hsplit
  · intro x hx y hy
    simp only [mem_filter, List.isEmpty_iff] at hx
    simp [Holds, hx.2] at hy
  · intro x hx hheld
    simp only [not_mem_nil, imp_false] at hheld
    simp only [nil_append, mem_filter, List.isEmpty_iff]
    refine ⟨hx, eq_nil_iff_forall_not_mem.2 hheld⟩

lemma Placing.complete_of_acyclic (h : g.Placing [] placed) (hacyclic : g.Acyclic)
    (hclosed : g.Closed) : g.nodes ⊆ placed := by
  by_contra hmissing
  obtain ⟨x, hx, hnew⟩ : ∃ x ∈ g.nodes, x ∉ placed := by simpa [subset_def] using hmissing
  obtain ⟨z, hz, hznew, hheld⟩ := exists_minimal hacyclic hclosed hx hnew
  have hmem := h.complete z hz hheld
  rw [append_nil] at hmem
  exact hznew hmem

lemma exists_topologicalOrder (hacyclic : g.Acyclic) (hclosed : g.Closed) :
    ∃ order, g.topologicalOrder = some order ∧ order.Nodup ∧ (∀ x, x ∈ order ↔ x ∈ g.nodes) ∧
      g.Ordered order := by
  obtain ⟨rest, hrest, hend⟩ :=
    Placing.place hclosed g.nodes.length _ [] (placing_start hclosed)
  rw [waiting_nil] at hrest hend
  generalize hplaced : g.place g.nodes.length g.waits _ [] = placed at hrest hend
  have hnodup : placed.Nodup := (nodup_append.1 hrest.nodup).1
  have hsub : placed ⊆ g.nodes := fun x hx => hrest.subset (mem_append_left _ hx)
  have hlen : placed.length = g.nodes.length := by
    rcases hend with rfl | hlen
    · have hle := (hnodup.subperm hsub).length_le
      have hge := (hclosed.nodup.subperm (hrest.complete_of_acyclic hacyclic hclosed)).length_le
      omega
    · simpa using hlen
  refine ⟨placed, by simp only [topologicalOrder, hplaced, hlen, ite_true], hnodup, ?_, hrest.ordered⟩
  intro x
  have hperm := (hnodup.subperm hsub).perm_of_length_le (by omega)
  exact hperm.mem_iff

lemma Ordered.idxOf_lt (hordered : g.Ordered order) {x y : String} (hx : x ∈ order)
    (hy : g.Holds x y) : order.idxOf y < order.idxOf x := by
  obtain ⟨before, behind, hsplit, hfirst⟩ := eq_append_cons_of_mem hx
  have hmem := hordered before x behind hsplit y hy
  rw [hsplit, idxOf_append_of_mem hmem, idxOf_append_of_notMem hfirst,
    idxOf_cons_self]
  have hlt := idxOf_lt_length_of_mem hmem
  omega

lemma Ordered.acyclic (hordered : g.Ordered order) (hclosed : g.Closed) (hall : g.nodes ⊆ order) :
    g.Acyclic := by
  have hbefore : ∀ a b, Relation.TransGen g.Holds a b → order.idxOf b < order.idxOf a := by
    intro a b hab
    induction hab with
    | single hstep => exact hordered.idxOf_lt (hall (hclosed.source_mem _ _ hstep)) hstep
    | tail _ hstep ih =>
      have hlt := hordered.idxOf_lt (hall (hclosed.source_mem _ _ hstep)) hstep
      omega
  intro a hcycle
  exact lt_irrefl _ (hbefore a a hcycle)

lemma acyclic_of_topologicalOrder (hclosed : g.Closed) (h : g.topologicalOrder = some order) :
    g.Acyclic := by
  obtain ⟨rest, hrest, -⟩ := Placing.place hclosed g.nodes.length _ [] (placing_start hclosed)
  rw [waiting_nil] at hrest
  simp only [topologicalOrder, Option.ite_none_right_eq_some, Option.some.injEq] at h
  obtain ⟨hlen, rfl⟩ := h
  have hnodup := (nodup_append.1 hrest.nodup).1
  have hsub : _ ⊆ g.nodes := fun x hx => hrest.subset (mem_append_left _ hx)
  have hperm := (hnodup.subperm hsub).perm_of_length_le hlen.ge
  exact hrest.ordered.acyclic hclosed hperm.symm.subset

end Xdr.Graph

/-! ## Graphs made by calls -/

namespace Xdr.Graph

open List

inductive Call
  | node (name : String)
  | dependency (source target : String) (optional : Bool)
deriving DecidableEq

namespace Call

def names : Call → List String
  | node name => [name]
  | dependency source target _ => [source, target]

/-- An addition without its optional mention: the types become nodes all the same. -/
def required : Call → List Call
  | dependency source target true => [node source, node target]
  | call => [call]

end Call

def apply (g : Graph) : Call → Graph
  | .node name => g.addNode name
  | .dependency source target optional => g.addEdge source target optional

def ofCalls (calls : List Call) : Graph := calls.foldl apply empty

/-- A call says that the first type holds the second by value. -/
def ValueEdge (calls : List Call) (a b : String) : Prop := .dependency a b false ∈ calls

/-- A call says that the first type mentions the second, by value unless options are included. -/
def CalledEdge (calls : List Call) (includeOptional : Bool) (a b : String) : Prop :=
  ∃ optional, .dependency a b optional ∈ calls ∧ (optional = true → includeOptional = true)

/-- The edges of one kind. -/
def edgesOf (g : Graph) (optional : Bool) : List (String × String) :=
  if optional then g.optionalEdges else g.edges

lemma mem_nodes_apply (g : Graph) (call : Call) (x : String) :
    x ∈ (g.apply call).nodes ↔ x ∈ g.nodes ∨ x ∈ call.names := by
  cases call with
  | node name => simp [apply, addNode, Call.names, mem_insertNew]
  | dependency source target optional =>
    cases optional <;> simp [apply, addEdge, addNode, Call.names, mem_insertNew, or_assoc]

lemma mem_edgesOf_apply (g : Graph) (call : Call) (kind : Bool) (a b : String) :
    (a, b) ∈ (g.apply call).edgesOf kind ↔
      (a, b) ∈ g.edgesOf kind ∨ call = .dependency a b kind := by
  cases call with
  | node name => cases kind <;> simp [apply, addNode, edgesOf]
  | dependency source target optional =>
    cases optional <;> cases kind <;>
      simp [apply, addEdge, addNode, edgesOf, mem_insertNew, eq_comm]

lemma nodup_apply {g : Graph} (hnodes : g.nodes.Nodup) (hedges : g.edges.Nodup) (call : Call) :
    (g.apply call).nodes.Nodup ∧ (g.apply call).edges.Nodup := by
  cases call with
  | node name => exact ⟨nodup_insertNew hnodes name, hedges⟩
  | dependency source target optional =>
    have hboth := nodup_insertNew (nodup_insertNew hnodes source) target
    cases optional with
    | false => exact ⟨hboth, nodup_insertNew hedges (source, target)⟩
    | true => exact ⟨hboth, hedges⟩

variable (calls : List Call)

lemma foldl_apply : ∀ g : Graph, g.nodes.Nodup → g.edges.Nodup →
      ((calls.foldl apply g).nodes.Nodup ∧ (calls.foldl apply g).edges.Nodup) ∧
      (∀ x, x ∈ (calls.foldl apply g).nodes ↔ x ∈ g.nodes ∨ ∃ call ∈ calls, x ∈ call.names) ∧
      ∀ kind a b, (a, b) ∈ (calls.foldl apply g).edgesOf kind ↔
        (a, b) ∈ g.edgesOf kind ∨ .dependency a b kind ∈ calls := by
  induction calls with
  | nil =>
    intro g hnodes hedges
    exact ⟨⟨hnodes, hedges⟩, by simp, by simp⟩
  | cons call rest ih =>
    intro g hnodes hedges
    have hstep := nodup_apply hnodes hedges call
    obtain ⟨hnodup, hmem, hedge⟩ := ih (g.apply call) hstep.1 hstep.2
    refine ⟨hnodup, fun x => ?_, fun kind a b => ?_⟩
    · rw [foldl_cons, hmem, mem_nodes_apply, exists_mem_cons_iff, or_assoc]
    · rw [foldl_cons, hedge, mem_edgesOf_apply, mem_cons, or_assoc, eq_comm (a := call)]

lemma mem_nodes_ofCalls (x : String) :
    x ∈ (ofCalls calls).nodes ↔ ∃ call ∈ calls, x ∈ call.names := by
  have h := (foldl_apply calls empty nodup_nil nodup_nil).2.1 x
  simpa [ofCalls, empty] using h

lemma mem_edgesOf_ofCalls (kind : Bool) (a b : String) :
    (a, b) ∈ (ofCalls calls).edgesOf kind ↔ .dependency a b kind ∈ calls := by
  have h := (foldl_apply calls empty nodup_nil nodup_nil).2.2 kind a b
  cases kind <;> simpa [ofCalls, empty, edgesOf] using h

lemma holds_ofCalls : (ofCalls calls).Holds = ValueEdge calls := by
  funext a b
  rw [eq_iff_iff, holds_iff]
  exact mem_edgesOf_ofCalls calls false a b

lemma included_ofCalls (includeOptional : Bool) :
    (ofCalls calls).Included includeOptional = CalledEdge calls includeOptional := by
  funext a b
  have hvalue := mem_edgesOf_ofCalls calls false a b
  have hoption := mem_edgesOf_ofCalls calls true a b
  simp only [edgesOf, Bool.false_eq_true, if_false, if_true] at hvalue hoption
  simp [Included, CalledEdge, hvalue, hoption, and_comm]

lemma closed_ofCalls : (ofCalls calls).Closed := by
  obtain ⟨⟨hnodes, hedges⟩, -, -⟩ := foldl_apply calls empty nodup_nil nodup_nil
  refine ⟨hnodes, hedges, fun a b hab => ?_, fun a b hab => ?_⟩
  · rw [holds_ofCalls] at hab
    exact (mem_nodes_ofCalls calls a).2 ⟨_, hab, by simp [Call.names]⟩
  · rw [holds_ofCalls] at hab
    exact (mem_nodes_ofCalls calls b).2 ⟨_, hab, by simp [Call.names]⟩

lemma CalledEdge.mem_nodes {calls : List Call} {includeOptional : Bool} {a b : String}
    (h : CalledEdge calls includeOptional a b) :
    a ∈ (ofCalls calls).nodes ∧ b ∈ (ofCalls calls).nodes := by
  obtain ⟨optional, hcall, -⟩ := h
  constructor <;> exact (mem_nodes_ofCalls calls _).2 ⟨_, hcall, by simp [Call.names]⟩

lemma mem_closure_ofCalls (roots : List String) (includeOptional : Bool) (y : String) :
    y ∈ (ofCalls calls).closure roots includeOptional ↔
      ∃ x ∈ roots, Relation.ReflTransGen (CalledEdge calls includeOptional) x y := by
  rw [← included_ofCalls]
  refine mem_closure_iff (fun a b hab => ?_) roots y
  rw [included_ofCalls] at hab
  exact hab.mem_nodes.2

lemma mem_closure_reversed (roots : List String) (includeOptional : Bool) (x : String) :
    x ∈ (ofCalls calls).reversed.closure roots includeOptional ↔
      ∃ y ∈ roots, Relation.ReflTransGen (CalledEdge calls includeOptional) x y := by
  have hflipped : (ofCalls calls).reversed.Included includeOptional =
      Function.swap (CalledEdge calls includeOptional) := by
    rw [included_reversed, included_ofCalls]
  rw [mem_closure_iff (fun a b hab => ?_), hflipped]
  · simp only [Relation.reflTransGen_swap]
  · rw [hflipped] at hab
    exact (CalledEdge.mem_nodes hab).1

lemma reversed_reversed (g : Graph) : g.reversed.reversed = g := by
  simp [reversed, Function.comp_def]

/-- The search finds what the roots lead to over the included mentions, each name once. A type is in
reach of another exactly when it leads back to it in the graph with every edge flipped, each in its own
kind, and flipping twice changes nothing. -/
theorem closure_exact (calls : List Call) (includeOptional : Bool) :
    (∀ roots, ((ofCalls calls).closure roots includeOptional).Nodup ∧
      ∀ y, y ∈ (ofCalls calls).closure roots includeOptional ↔
        ∃ x ∈ roots, Relation.ReflTransGen (CalledEdge calls includeOptional) x y) ∧
    (∀ x y, y ∈ (ofCalls calls).closure [x] includeOptional ↔
      x ∈ (ofCalls calls).reversed.closure [y] includeOptional) ∧
    (∀ kind a b, (a, b) ∈ (ofCalls calls).reversed.edgesOf kind ↔ .dependency b a kind ∈ calls) ∧
    (ofCalls calls).reversed.reversed = ofCalls calls := by
  refine ⟨fun roots => ⟨nodup_sortTexts _, mem_closure_ofCalls calls roots includeOptional⟩,
    fun x y => ?_, fun kind a b => ?_, reversed_reversed _⟩
  · rw [mem_closure_ofCalls, mem_closure_reversed]
    simp
  · rw [← mem_edgesOf_ofCalls]
    cases kind <;> simp [reversed, edgesOf]

def withoutOptional (g : Graph) : Graph := { g with optionalEdges := [] }

lemma visit_withoutOptional (g : Graph) (n : Nat) :
    ∀ path seen node, g.withoutOptional.visit n path seen node = g.visit n path seen node := by
  induction n with
  | zero => exact fun _ _ _ => rfl
  | succ n ih =>
    intro path seen node
    have hturn : g.withoutOptional.turn n (path ++ [node]) = g.turn n (path ++ [node]) := by
      funext state neighbour
      simp only [turn, ih]
    rw [visit_succ, visit_succ, hturn]
    rfl

lemma findCycle_withoutOptional (g : Graph) : g.withoutOptional.findCycle = g.findCycle := by
  have hstart : g.withoutOptional.start = g.start := by
    funext state node
    simp only [start, visit_withoutOptional]
    rfl
  rw [findCycle_eq, findCycle_eq, hstart]
  rfl

lemma foldl_apply_required (g : Graph) (call : Call) :
    call.required.foldl apply g.withoutOptional = (g.apply call).withoutOptional := by
  cases call with
  | node name => rfl
  | dependency source target optional => cases optional <;> rfl

lemma ofCalls_required :
    ofCalls (calls.flatMap Call.required) = (ofCalls calls).withoutOptional := by
  have hfold : ∀ g : Graph, (calls.flatMap Call.required).foldl apply g.withoutOptional =
      (calls.foldl apply g).withoutOptional := by
    induction calls with
    | nil => exact fun _ => rfl
    | cons call rest ih =>
      intro g
      rw [flatMap_cons, foldl_append, foldl_apply_required, ih, foldl_cons]
  exact hfold empty

/-- The search finds nothing exactly when the value edges have no cycle, and what it finds is one:
distinct types, of which each holds the next by value and the last the first. Optional mentions
might as well not be there. -/
theorem findCycle_exact (calls : List Call) :
    ((ofCalls calls).findCycle = [] ↔ ∀ a, ¬ Relation.TransGen (ValueEdge calls) a a) ∧
      ((ofCalls calls).findCycle = [] ∨
        (ofCalls calls).findCycle.Nodup ∧ (ofCalls calls).findCycle.IsChain (ValueEdge calls) ∧
          ∃ first last, (ofCalls calls).findCycle.head? = some first ∧
            (ofCalls calls).findCycle.getLast? = some last ∧ ValueEdge calls last first) ∧
      (ofCalls (calls.flatMap Call.required)).findCycle = (ofCalls calls).findCycle := by
  have hclosed := closed_ofCalls calls
  have hnil := findCycle_eq_nil_iff hclosed
  rw [Acyclic, holds_ofCalls] at hnil
  refine ⟨hnil, ?_, ?_⟩
  · rcases findCycle_spec hclosed with ⟨hempty, -⟩ | ⟨hcycle, -⟩
    · exact .inl hempty
    · rw [IsCycle, holds_ofCalls] at hcycle
      exact .inr hcycle
  · rw [ofCalls_required, findCycle_withoutOptional]

/-- There is no order exactly when the search finds a cycle. Otherwise the order has every type that
the calls name once, and each behind all that it holds by value. -/
theorem topologicalOrder_exact (calls : List Call) :
    ((ofCalls calls).topologicalOrder = none ↔ (ofCalls calls).findCycle ≠ []) ∧
      ∀ order, (ofCalls calls).topologicalOrder = some order →
        order.Nodup ∧ (∀ x, x ∈ order ↔ ∃ call ∈ calls, x ∈ call.names) ∧
          ∀ a b, ValueEdge calls a b → order.idxOf b < order.idxOf a := by
  have hclosed := closed_ofCalls calls
  constructor
  · rw [ne_eq, findCycle_eq_nil_iff hclosed]
    constructor
    · intro hnone hacyclic
      obtain ⟨order, hsome, -⟩ := exists_topologicalOrder hacyclic hclosed
      rw [hnone] at hsome
      cases hsome
    · intro hcyclic
      rw [Option.eq_none_iff_forall_ne_some]
      intro order hsome
      exact hcyclic (acyclic_of_topologicalOrder hclosed hsome)
  · intro order hsome
    have hacyclic := acyclic_of_topologicalOrder hclosed hsome
    obtain ⟨order', hsome', hnodup, hmem, hordered⟩ := exists_topologicalOrder hacyclic hclosed
    have heq : order = order' := Option.some.inj (hsome.symm.trans hsome')
    subst heq
    refine ⟨hnodup, fun x => (hmem x).trans (mem_nodes_ofCalls calls x), fun a b hab => ?_⟩
    rw [← holds_ofCalls] at hab
    exact hordered.idxOf_lt ((hmem a).2 (hclosed.source_mem a b hab)) hab

end Xdr.Graph
