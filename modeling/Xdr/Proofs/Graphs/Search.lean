import Mathlib
import Xdr.Graph

/-!
# The search for cycles

`findCycle` is exact: it gives the empty list when the value edges have no cycle, and otherwise names
of which each holds the next by value and the last holds the first.
-/

namespace Xdr

open List

variable {g : Graph} {path seen names : List String} {node : String} {α : Type}

lemma mem_insertText (x s : String) (xs : List String) :
    x ∈ insertText s xs ↔ x = s ∨ x ∈ xs := by
  induction xs with
  | nil => simp [insertText]
  | cons y ys ih =>
    simp only [insertText]
    split
    · rename_i h
      simp [h]
    · split
      · simp
      · simp only [mem_cons, ih]
        tauto

lemma mem_sortTexts (x : String) (xs : List String) : x ∈ sortTexts xs ↔ x ∈ xs := by
  have h : ∀ acc : List String,
      x ∈ xs.foldl (fun acc s => insertText s acc) acc ↔ x ∈ acc ∨ x ∈ xs := by
    induction xs with
    | nil => simp
    | cons y ys ih =>
      intro acc
      rw [foldl_cons, ih, mem_insertText, mem_cons]
      tauto
  simpa [sortTexts] using h []

namespace Graph

lemma mem_insertNew [BEq α] [LawfulBEq α] (xs : List α) (x y : α) :
    y ∈ insertNew xs x ↔ y ∈ xs ∨ y = x := by
  unfold insertNew
  split
  · rename_i h
    rw [contains_iff_mem] at h
    constructor
    · exact .inl
    · rintro (hy | rfl)
      · exact hy
      · exact h
  · rw [mem_append, mem_singleton]

lemma nodup_insertNew [BEq α] [LawfulBEq α] {xs : List α} (h : xs.Nodup) (x : α) :
    (insertNew xs x).Nodup := by
  unfold insertNew
  split
  · exact h
  · rename_i hx
    rw [contains_iff_mem] at hx
    rw [nodup_append]
    refine ⟨h, by simp, ?_⟩
    rintro a ha b hb rfl
    exact hx (mem_singleton.1 hb ▸ ha)

def Holds (g : Graph) (a b : String) : Prop := b ∈ g.held a

def Acyclic (g : Graph) : Prop := ∀ a, ¬ Relation.TransGen g.Holds a a

/-- Each node and each value edge is listed once, and edges join nodes. -/
structure Closed (g : Graph) : Prop where
  nodup : g.nodes.Nodup
  edges_nodup : g.edges.Nodup
  source_mem : ∀ a b, g.Holds a b → a ∈ g.nodes
  target_mem : ∀ a b, g.Holds a b → b ∈ g.nodes

lemma holds_iff (g : Graph) (a b : String) : g.Holds a b ↔ (a, b) ∈ g.edges := by
  simp only [Holds, held, targets, mem_map, mem_filter, beq_iff_eq]
  constructor
  · rintro ⟨⟨x, y⟩, ⟨hmem, rfl⟩, rfl⟩
    exact hmem
  · intro h
    exact ⟨(a, b), ⟨h, rfl⟩, rfl⟩

def IsCycle (g : Graph) (names : List String) : Prop :=
  names.Nodup ∧ names.IsChain g.Holds ∧
    ∃ first last, names.head? = some first ∧ names.getLast? = some last ∧ g.Holds last first

lemma transGen_of_isChain (g : Graph) (last : String) :
    ∀ (first : String) (rest : List String), (first :: rest).IsChain g.Holds →
      (first :: rest).getLast? = some last → Relation.ReflTransGen g.Holds first last := by
  intro first rest
  induction rest generalizing first with
  | nil =>
    intro _ hl
    simp only [getLast?_singleton, Option.some.injEq] at hl
    rw [hl]
  | cons next rest ih =>
    intro hc hl
    rw [isChain_cons_cons] at hc
    rw [getLast?_cons_cons] at hl
    exact .head hc.1 (ih next hc.2 hl)

lemma IsCycle.not_acyclic (h : g.IsCycle names) : ¬ g.Acyclic := by
  obtain ⟨_, hchain, first, last, hfirst, hlast, hback⟩ := h
  cases names with
  | nil => simp at hfirst
  | cons x rest =>
    simp only [head?_cons, Option.some.injEq] at hfirst
    subst hfirst
    have hpath := transGen_of_isChain g last x rest hchain hlast
    intro hacyclic
    exact hacyclic x (Relation.TransGen.tail' hpath hback)

lemma IsCycle.ne_nil (h : g.IsCycle names) : names ≠ [] := by
  obtain ⟨_, _, first, _, hfirst, _⟩ := h
  rintro rfl
  simp at hfirst

def turn (g : Graph) (n : Nat) (path : List String) (state : Search) (neighbour : String) :
    Search :=
  match state with
  | .cycle names => .cycle names
  | .visited seen =>
    if !seen.contains neighbour then g.visit n path seen neighbour
    else if path.contains neighbour then .cycle (path.dropWhile (· != neighbour))
    else .visited seen

lemma visit_succ (g : Graph) (n : Nat) (path seen : List String) (node : String) :
    g.visit (n + 1) path seen node =
      (sortTexts (g.held node)).foldl (g.turn n (path ++ [node])) (.visited (seen ++ [node])) := rfl

lemma foldl_turn_cycle (g : Graph) (n : Nat) (path names ns : List String) :
    ns.foldl (g.turn n path) (.cycle names) = .cycle names := by
  induction ns with
  | nil => rfl
  | cons x xs ih => exact ih

/-- Where a search without a cycle stands: `path` is being visited, and what was visited and left
leads nowhere but to what was visited and left, without a cycle. -/
structure Standing (g : Graph) (path seen : List String) : Prop where
  nodup : seen.Nodup
  subset : seen ⊆ g.nodes
  path_subset : path ⊆ seen
  path_nodup : path.Nodup
  linked : path.IsChain g.Holds
  left : ∀ x ∈ seen, x ∉ path → ∀ y, g.Holds x y → y ∈ seen ∧ y ∉ path
  acyclic : ∀ x ∈ seen, x ∉ path → ¬ Relation.TransGen g.Holds x x

def Ended (g : Graph) (path seen targets : List String) : Search → Prop
  | .cycle names => g.IsCycle names
  | .visited found => g.Standing path found ∧ seen ⊆ found ∧ ∀ y ∈ targets, y ∈ found ∧ y ∉ path

lemma Standing.enter (h : g.Standing path seen) (hnode : node ∈ g.nodes) (hnew : node ∉ seen)
    (hedge : ∀ last ∈ path.getLast?, g.Holds last node) :
    g.Standing (path ++ [node]) (seen ++ [node]) where
  nodup := by
    rw [nodup_append]
    refine ⟨h.nodup, nodup_singleton node, ?_⟩
    rintro a ha b hb rfl
    rw [mem_singleton] at hb
    exact hnew (hb ▸ ha)
  subset := by
    intro x hx
    rw [mem_append, mem_singleton] at hx
    rcases hx with hx | rfl
    · exact h.subset hx
    · exact hnode
  path_subset := by
    intro x hx
    rw [mem_append] at hx ⊢
    exact hx.imp_left (fun hp => h.path_subset hp)
  path_nodup := by
    rw [nodup_append]
    refine ⟨h.path_nodup, nodup_singleton node, ?_⟩
    rintro a ha b hb rfl
    rw [mem_singleton] at hb
    exact hnew (hb ▸ h.path_subset ha)
  linked := by
    refine h.linked.append (isChain_singleton node) ?_
    intro last hlast first hfirst
    simp only [head?_cons, Option.mem_def, Option.some.injEq] at hfirst
    exact hfirst ▸ hedge last hlast
  left := by
    intro x hx hpath y hy
    rw [mem_append, mem_singleton, not_or] at hpath
    rw [mem_append, mem_singleton] at hx
    have hseen : x ∈ seen := hx.resolve_right hpath.2
    have hleft := h.left x hseen hpath.1 y hy
    refine ⟨mem_append_left _ hleft.1, ?_⟩
    rw [mem_append, mem_singleton, not_or]
    refine ⟨hleft.2, ?_⟩
    rintro rfl
    exact hnew hleft.1
  acyclic := by
    intro x hx hpath
    rw [mem_append, mem_singleton, not_or] at hpath
    rw [mem_append, mem_singleton] at hx
    exact h.acyclic x (hx.resolve_right hpath.2) hpath.1

lemma Standing.reach (h : g.Standing path seen) {x y : String} (hx : x ∈ seen) (hpath : x ∉ path)
    (hreach : Relation.ReflTransGen g.Holds x y) : y ∈ seen ∧ y ∉ path := by
  induction hreach with
  | refl => exact ⟨hx, hpath⟩
  | tail _ hstep ih => exact h.left _ ih.1 ih.2 _ hstep

lemma Standing.leave (h : g.Standing (path ++ [node]) seen)
    (hheld : ∀ y, g.Holds node y → y ∈ seen ∧ y ∉ path ++ [node]) :
    g.Standing path seen where
  nodup := h.nodup
  subset := h.subset
  path_subset := fun x hx => h.path_subset (mem_append_left _ hx)
  path_nodup := (nodup_append.1 h.path_nodup).1
  linked := h.linked.left_of_append
  left := by
    intro x hx hpath y hy
    have hy' : y ∈ seen ∧ y ∉ path ++ [node] := by
      by_cases hxn : x = node
      · exact hheld y (hxn ▸ hy)
      · refine h.left x hx ?_ y hy
        rw [mem_append, mem_singleton, not_or]
        exact ⟨hpath, hxn⟩
    rw [mem_append, not_or] at hy'
    exact ⟨hy'.1, hy'.2.1⟩
  acyclic := by
    intro x hx hpath hcycle
    by_cases hxn : x = node
    · subst hxn
      -- A cycle through the node goes on from something that was left, which does not lead back.
      obtain ⟨y, hy, hback⟩ := (Relation.TransGen.head'_iff).1 hcycle
      have hleft := hheld y hy
      have hreach := h.reach hleft.1 hleft.2 hback
      exact hreach.2 (mem_append_right _ (.head _))
    · refine h.acyclic x hx ?_ hcycle
      rw [mem_append, mem_singleton, not_or]
      exact ⟨hpath, hxn⟩

lemma Standing.isCycle {y : String} (h : g.Standing path seen) (hlast : path.getLast? = some node)
    (hy : y ∈ path) (hedge : g.Holds node y) : g.IsCycle (path.dropWhile (· != y)) := by
  have hne : path.dropWhile (· != y) ≠ [] := by
    intro hnil
    rw [dropWhile_eq_nil_iff] at hnil
    simpa using hnil y hy
  have hsplit := takeWhile_append_dropWhile (p := (· != y)) (l := path)
  refine ⟨?_, ?_, y, node, ?_, ?_, hedge⟩
  · exact h.path_nodup.sublist (dropWhile_sublist _)
  · have hlinked := h.linked
    rw [← hsplit] at hlinked
    exact hlinked.right_of_append
  · have hhead := head_dropWhile_not (p := (· != y)) (l := path) hne
    rw [head?_eq_some_head hne]
    simpa using hhead
  · have hend : (path.takeWhile (· != y) ++ path.dropWhile (· != y)).getLast? = some node := by
      rw [hsplit, hlast]
    rwa [getLast?_append_of_ne_nil _ hne] at hend

lemma Standing.length_lt (h : g.Standing path seen) (hnode : node ∈ g.nodes) (hnew : node ∉ seen) :
    seen.length < g.nodes.length := by
  have hsub : node :: seen ⊆ g.nodes := cons_subset.2 ⟨hnode, h.subset⟩
  have hnodup : (node :: seen).Nodup := nodup_cons.2 ⟨hnew, h.nodup⟩
  have hle := (hnodup.subperm hsub).length_le
  simp only [length_cons] at hle
  omega

lemma Ended.cons {found ns : List String} {y : String} {state : Search} (h : g.Ended path found ns state)
    (hsub : seen ⊆ found) (hy : y ∈ found ∧ y ∉ path) : g.Ended path seen (y :: ns) state := by
  cases state with
  | cycle names => exact h
  | visited final =>
    refine ⟨h.1, fun x hx => h.2.1 (hsub hx), ?_⟩
    intro z hz
    rcases mem_cons.1 hz with rfl | hz
    · exact ⟨h.2.1 hy.1, hy.2⟩
    · exact h.2.2 z hz

lemma foldl_turn_ended {n : Nat} (hclosed : g.Closed) (hlast : path.getLast? = some node)
    (hvisit : ∀ seen y, g.Standing path seen → y ∈ g.nodes → y ∉ seen → g.Holds node y →
      g.nodes.length ≤ n + seen.length → g.Ended path seen [y] (g.visit n path seen y)) :
    ∀ (ns seen : List String), g.Standing path seen → (∀ y ∈ ns, g.Holds node y) →
      g.nodes.length ≤ n + seen.length →
      g.Ended path seen ns (ns.foldl (g.turn n path) (.visited seen)) := by
  intro ns
  induction ns with
  | nil =>
    intro seen hstanding _ _
    exact ⟨hstanding, fun _ hx => hx, by simp⟩
  | cons y ys ih =>
    intro seen hstanding hheld hfuel
    have hy : g.Holds node y := hheld y (.head _)
    have hys : ∀ z ∈ ys, g.Holds node z := fun z hz => hheld z (.tail _ hz)
    -- After the first neighbour the search stands at `found`; the others go on from there.
    have hrest : ∀ found, g.Standing path found → seen ⊆ found → y ∈ found ∧ y ∉ path →
        g.Ended path seen (y :: ys) (ys.foldl (g.turn n path) (.visited found)) := by
      intro found hfound hsub hleft
      have hlen : seen.length ≤ found.length := (hstanding.nodup.subperm hsub).length_le
      exact (ih found hfound hys (by omega)).cons hsub hleft
    rw [foldl_cons]
    by_cases hseen : y ∈ seen
    · by_cases hpath : y ∈ path
      · have hturn : g.turn n path (.visited seen) y = .cycle (path.dropWhile (· != y)) := by
          simp [turn, hseen, hpath]
        rw [hturn, foldl_turn_cycle]
        exact hstanding.isCycle hlast hpath hy
      · have hturn : g.turn n path (.visited seen) y = .visited seen := by
          simp [turn, hseen, hpath]
        rw [hturn]
        exact hrest seen hstanding (fun _ hx => hx) ⟨hseen, hpath⟩
    · have hturn : g.turn n path (.visited seen) y = g.visit n path seen y := by
        simp [turn, hseen]
      have hend := hvisit seen y hstanding (hclosed.target_mem _ _ hy) hseen hy hfuel
      rw [hturn]
      cases hr : g.visit n path seen y with
      | cycle names =>
        rw [hr] at hend
        rw [foldl_turn_cycle]
        exact hend
      | visited found =>
        rw [hr] at hend
        exact hrest found hend.1 hend.2.1 (hend.2.2 y (mem_singleton_self y))

lemma visit_ended (hclosed : g.Closed) (n : Nat) :
    ∀ (path seen : List String) (node : String), g.Standing path seen → node ∈ g.nodes →
      node ∉ seen → (∀ last ∈ path.getLast?, g.Holds last node) →
      g.nodes.length ≤ n + seen.length → g.Ended path seen [node] (g.visit n path seen node) := by
  induction n with
  | zero =>
    intro path seen node hstanding hnode hnew _ hfuel
    have hlt := hstanding.length_lt hnode hnew
    omega
  | succ n ih =>
    intro path seen node hstanding hnode hnew hedge hfuel
    have henter := hstanding.enter hnode hnew hedge
    have hlast : (path ++ [node]).getLast? = some node := getLast?_concat
    have hend := foldl_turn_ended (n := n) hclosed hlast
      (fun seen y hs hy hn hheld hf => ih (path ++ [node]) seen y hs hy hn
        (by
          intro last hl
          rw [hlast, Option.mem_some_iff] at hl
          exact hl ▸ hheld) hf)
      (sortTexts (g.held node)) (seen ++ [node]) henter
      (fun y hy => (mem_sortTexts y (g.held node)).1 hy)
      (by
        rw [length_append, length_singleton]
        omega)
    rw [visit_succ]
    cases hr : (sortTexts (g.held node)).foldl (g.turn n (path ++ [node]))
        (.visited (seen ++ [node])) with
    | cycle names =>
      rw [hr] at hend
      exact hend
    | visited found =>
      rw [hr] at hend
      obtain ⟨hstand, hsub, hleft⟩ := hend
      refine ⟨hstand.leave fun y hy => hleft y ((mem_sortTexts y _).2 hy), ?_, ?_⟩
      · exact fun x hx => hsub (mem_append_left _ hx)
      · intro y hy
        rw [mem_singleton] at hy
        subst hy
        refine ⟨hsub (mem_append_right _ (.head _)), ?_⟩
        exact fun hp => hnew (hstanding.path_subset hp)

def start (g : Graph) (state : Search) (node : String) : Search :=
  match state with
  | .cycle names => .cycle names
  | .visited seen =>
    if seen.contains node then .visited seen else g.visit g.nodes.length [] seen node

lemma foldl_start_cycle (g : Graph) (names ns : List String) :
    ns.foldl g.start (.cycle names) = .cycle names := by
  induction ns with
  | nil => rfl
  | cons x xs ih => exact ih

lemma foldl_start_ended (hclosed : g.Closed) :
    ∀ (ns seen : List String), ns ⊆ g.nodes → g.Standing [] seen →
      g.Ended [] seen ns (ns.foldl g.start (.visited seen)) := by
  intro ns
  induction ns with
  | nil =>
    intro seen _ hstanding
    exact ⟨hstanding, fun _ hx => hx, by simp⟩
  | cons node rest ih =>
    intro seen hsub hstanding
    have hrest : ∀ found, g.Standing [] found → seen ⊆ found → node ∈ found →
        g.Ended [] seen (node :: rest) (rest.foldl g.start (.visited found)) := by
      intro found hfound hseen hnode
      have hend := ih found (fun x hx => hsub (.tail _ hx)) hfound
      exact hend.cons hseen ⟨hnode, by simp⟩
    rw [foldl_cons]
    by_cases hseen : node ∈ seen
    · have hstart : g.start (.visited seen) node = .visited seen := by simp [start, hseen]
      rw [hstart]
      exact hrest seen hstanding (fun _ hx => hx) hseen
    · have hstart : g.start (.visited seen) node = g.visit g.nodes.length [] seen node := by
        simp [start, hseen]
      have hend := visit_ended hclosed g.nodes.length [] seen node hstanding
        (hsub (.head _)) hseen (by simp) (by omega)
      rw [hstart]
      cases hr : g.visit g.nodes.length [] seen node with
      | cycle names =>
        rw [hr] at hend
        rw [foldl_start_cycle]
        exact hend
      | visited found =>
        rw [hr] at hend
        exact hrest found hend.1 hend.2.1 (hend.2.2 node (mem_singleton_self node)).1

lemma findCycle_eq (g : Graph) :
    g.findCycle =
      match g.nodes.foldl g.start (.visited []) with
      | .cycle names => names
      | .visited _ => [] := rfl

lemma standing_nil (g : Graph) : g.Standing [] [] where
  nodup := nodup_nil
  subset := nil_subset _
  path_subset := nil_subset _
  path_nodup := nodup_nil
  linked := isChain_nil
  left := by simp
  acyclic := by simp

lemma findCycle_spec (hclosed : g.Closed) :
    (g.findCycle = [] ∧ g.Acyclic) ∨ (g.IsCycle g.findCycle ∧ ¬ g.Acyclic) := by
  have hend := foldl_start_ended hclosed g.nodes [] (fun _ hx => hx) g.standing_nil
  rw [findCycle_eq]
  cases hr : g.nodes.foldl g.start (.visited []) with
  | cycle names =>
    rw [hr] at hend
    exact .inr ⟨hend, IsCycle.not_acyclic hend⟩
  | visited seen =>
    rw [hr] at hend
    refine .inl ⟨rfl, ?_⟩
    intro a hcycle
    obtain ⟨b, hab, _⟩ := Relation.TransGen.head'_iff.1 hcycle
    have ha := hend.2.2 a (hclosed.source_mem a b hab)
    exact hend.1.acyclic a ha.1 ha.2 hcycle

lemma findCycle_eq_nil_iff (hclosed : g.Closed) : g.findCycle = [] ↔ g.Acyclic := by
  rcases findCycle_spec hclosed with ⟨hnil, hacyclic⟩ | ⟨hcycle, hnot⟩
  · exact ⟨fun _ => hacyclic, fun _ => hnil⟩
  · exact ⟨fun h => absurd h hcycle.ne_nil, fun h => absurd h hnot⟩

end Graph

/-! ## The search for everything in reach -/

variable {roots xs : List String}

lemma pairwise_insertText (s : String) (h : xs.Pairwise (· < ·)) :
    (insertText s xs).Pairwise (· < ·) := by
  induction xs with
  | nil => exact pairwise_singleton _ s
  | cons x xs ih =>
    obtain ⟨hhead, htail⟩ := pairwise_cons.1 h
    simp only [insertText]
    split
    · exact h
    · rename_i hne
      split
      · rename_i hlt
        refine pairwise_cons.2 ⟨fun y hy => ?_, h⟩
        rcases mem_cons.1 hy with rfl | hy
        · exact hlt
        · exact lt_trans hlt (hhead y hy)
      · rename_i hnlt
        refine pairwise_cons.2 ⟨fun y hy => ?_, ih htail⟩
        rcases (mem_insertText y s xs).1 hy with rfl | hy
        · exact lt_of_le_of_ne (not_lt.1 hnlt) (Ne.symm hne)
        · exact hhead y hy

lemma pairwise_sortTexts (xs : List String) : (sortTexts xs).Pairwise (· < ·) := by
  have h : ∀ acc : List String, acc.Pairwise (· < ·) →
      (xs.foldl (fun acc s => insertText s acc) acc).Pairwise (· < ·) := by
    induction xs with
    | nil => exact fun _ hacc => hacc
    | cons x xs ih => exact fun acc hacc => ih _ (pairwise_insertText x hacc)
  exact h [] .nil

lemma nodup_sortTexts (xs : List String) : (sortTexts xs).Nodup :=
  (pairwise_sortTexts xs).imp ne_of_lt

lemma sortTexts_congr {ys : List String} (h : ∀ x, x ∈ xs ↔ x ∈ ys) :
    sortTexts xs = sortTexts ys :=
  (pairwise_sortTexts xs).eq_of_mem_iff (pairwise_sortTexts ys) fun x => by
    rw [mem_sortTexts, mem_sortTexts, h]

namespace Graph

def Mentions (g : Graph) (a b : String) : Prop := (a, b) ∈ g.edges ∨ (a, b) ∈ g.optionalEdges

lemma mem_targets (edges : List (String × String)) (a b : String) :
    b ∈ targets edges a ↔ (a, b) ∈ edges := by
  simp only [targets, mem_map, mem_filter, beq_iff_eq]
  constructor
  · rintro ⟨⟨x, y⟩, ⟨hmem, rfl⟩, rfl⟩
    exact hmem
  · exact fun h => ⟨(a, b), ⟨h, rfl⟩, rfl⟩

/-- The first mentions the second, by value or, where such mentions are asked for, behind an option. -/
def Included (g : Graph) (optional : Bool) (a b : String) : Prop :=
  (a, b) ∈ g.edges ∨ optional = true ∧ (a, b) ∈ g.optionalEdges

lemma included_true (g : Graph) : g.Included true = g.Mentions := by
  funext a b
  simp [Included, Mentions]

lemma mem_dependencies (g : Graph) (optional : Bool) (a b : String) :
    b ∈ g.dependencies a optional ↔ g.Included optional a b := by
  cases optional <;> simp [dependencies, mem_sortTexts, held, mem_targets, Included]

lemma included_reversed (g : Graph) (optional : Bool) :
    g.reversed.Included optional = Function.swap (g.Included optional) := by
  funext a b
  simp [Included, reversed, Function.swap]

lemma dependencies_congr {g k : Graph} (h : ∀ a b, g.Mentions a b ↔ k.Mentions a b) (a : String) :
    g.dependencies a true = k.dependencies a true := by
  refine sortTexts_congr fun x => ?_
  rw [← mem_sortTexts, ← mem_sortTexts x (k.held a ++ _)]
  have hmem := fun g => mem_dependencies g true
  simp only [included_true] at hmem
  exact (hmem g a x).trans ((h a x).trans (hmem k a x).symm)

/-- Where a search from `roots` stands: what was found can be reached, and what waits no longer has
been looked through. -/
structure Reaching (g : Graph) (optional : Bool) (roots queue seen : List String) : Prop where
  nodup : seen.Nodup
  bounded : seen ⊆ roots ++ g.nodes
  waiting : queue ⊆ seen
  started : roots ⊆ seen
  reached : ∀ x ∈ seen, ∃ r ∈ roots, Relation.ReflTransGen (g.Included optional) r x
  passed : ∀ x ∈ seen, x ∉ queue → ∀ y, g.Included optional x y → y ∈ seen

section

variable {g : Graph} {optional : Bool} (htargets : ∀ a b, g.Included optional a b → b ∈ g.nodes)

include htargets

lemma Reaching.step {queue seen : List String} {current : String}
    (h : g.Reaching optional roots (current :: queue) seen) :
    g.Reaching optional roots (queue ++ (g.dependencies current optional).filter (!seen.contains ·))
      (seen ++ (g.dependencies current optional).filter (!seen.contains ·)) := by
  have hfound : ∀ x, x ∈ (g.dependencies current optional).filter (!seen.contains ·) ↔
      g.Included optional current x ∧ x ∉ seen := by
    intro x
    simp [mem_filter, mem_dependencies]
  generalize hnew : (g.dependencies current optional).filter (!seen.contains ·) = found at hfound ⊢
  have hcurrent : current ∈ seen := h.waiting (.head _)
  refine ⟨?_, ?_, ?_, ?_, ?_, ?_⟩
  · refine nodup_append.2 ⟨h.nodup, hnew ▸ (nodup_sortTexts _).filter _, ?_⟩
    rintro x hx y hy rfl
    exact ((hfound x).1 hy).2 hx
  · refine append_subset.2 ⟨h.bounded, fun x hx => ?_⟩
    exact mem_append_right _ (htargets current x ((hfound x).1 hx).1)
  · refine append_subset.2 ⟨fun x hx => ?_, subset_append_right _ _⟩
    exact mem_append_left _ (h.waiting (.tail _ hx))
  · exact fun x hx => mem_append_left _ (h.started hx)
  · intro x hx
    rcases mem_append.1 hx with hx | hx
    · exact h.reached x hx
    · obtain ⟨r, hr, hpath⟩ := h.reached current hcurrent
      exact ⟨r, hr, hpath.tail ((hfound x).1 hx).1⟩
  · intro x hx hqueue y hxy
    rw [mem_append, not_or] at hqueue
    have hxseen : x ∈ seen := (mem_append.1 hx).resolve_right hqueue.2
    by_cases hy : y ∈ seen
    · exact mem_append_left _ hy
    · by_cases hxc : x = current
      · exact mem_append_right _ ((hfound y).2 ⟨hxc ▸ hxy, hy⟩)
      · have hnot : x ∉ current :: queue := not_mem_cons_of_ne_of_not_mem hxc hqueue.1
        exact mem_append_left _ (h.passed x hxseen hnot y hxy)

lemma Reaching.reach (n : Nat) :
    ∀ queue seen, g.Reaching optional roots queue seen →
      roots.length + g.nodes.length + queue.length ≤ n + seen.length →
      g.Reaching optional roots [] (g.reach optional n queue seen) := by
  induction n with
  | zero =>
    intro queue seen h hfuel
    have hlength := (h.nodup.subperm h.bounded).length_le
    rw [length_append] at hlength
    have hempty : queue = [] := eq_nil_of_length_eq_zero (by omega)
    subst hempty
    exact h
  | succ n ih =>
    intro queue seen h hfuel
    cases queue with
    | nil => exact h
    | cons current queue =>
      refine ih _ _ (Reaching.step htargets h) ?_
      simp only [length_append, length_cons] at hfuel ⊢
      omega

lemma mem_closure_iff (roots : List String) (x : String) :
    x ∈ g.closure roots optional ↔
      ∃ r ∈ roots, Relation.ReflTransGen (g.Included optional) r x := by
  have hstart : g.Reaching optional (sortTexts roots) (sortTexts roots) (sortTexts roots) :=
    ⟨nodup_sortTexts roots, subset_append_left _ _, List.Subset.refl _, List.Subset.refl _,
      fun x hx => ⟨x, hx, .refl⟩, fun x hx hqueue => absurd hx hqueue⟩
  have hend := Reaching.reach htargets ((sortTexts roots).length + g.nodes.length) _ _ hstart le_rfl
  rw [closure, mem_sortTexts]
  constructor
  · intro hx
    obtain ⟨r, hr, hpath⟩ := hend.reached x hx
    exact ⟨r, (mem_sortTexts r roots).1 hr, hpath⟩
  · rintro ⟨r, hr, hpath⟩
    induction hpath with
    | refl => exact hend.started ((mem_sortTexts r roots).2 hr)
    | tail _ hstep ih => exact hend.passed _ ih not_mem_nil _ hstep

end

end Graph

end Xdr
