import Xdr.Proofs.Parsing.Soundness

/-!
# What is derived is accepted

A certified table makes the parser follow every valid derivation, one step a leaf or node. So a
derivation is found from its word, and no word has two.
-/

namespace Xdr

open Automaton Grammar List

variable {tokens : List Token} {d : Derivation}

namespace Derivation

lemma firsts_closed : ∀ p ∈ productions,
    firstOf firstSets p.rhs &&& entry firstSets p.lhs.ctorIdx = firstOf firstSets p.rhs ∧
      (p.rhs.all nullable → nullable (.nonterminal p.lhs)) := by
  decide +kernel

lemma testBit_bitOf (t : Terminal) : (bitOf t).testBit t.ctorIdx := by
  simp [bitOf, Nat.testBit_shiftLeft]

mutual

lemma nullable_of_word : ∀ d : Derivation, d.valid → d.word = [] →
    nullable d.symbol
  | leaf t, _, h => by cases h
  | node r children, hvalid, h => by
    obtain ⟨⟨p, hp, hrhs⟩, hall⟩ := valid_node_iff.1 hvalid
    rw [symbol_node hp]
    refine (firsts_closed p (Array.mem_of_getElem? hp)).2 ?_
    rw [hrhs]
    exact nullable_of_wordAll children hall h

lemma nullable_of_wordAll : ∀ ds : List Derivation, validAll ds → wordAll ds = [] →
    (ds.map symbol).all nullable
  | [], _, _ => rfl
  | d :: ds, hvalid, h => by
    rw [validAll, Bool.and_eq_true] at hvalid
    rw [wordAll, append_eq_nil_iff] at h
    rw [map_cons, all_cons, nullable_of_word d hvalid.1 h.1,
      nullable_of_wordAll ds hvalid.2 h.2, Bool.and_self]

end

mutual

lemma first_of_word : ∀ (d : Derivation) (t : Token), d.valid → d.word.head? = some t →
    (firstOfSymbol firstSets d.symbol).testBit t.kind.ctorIdx
  | leaf s, t, _, h => by
    obtain rfl : s = t := by simpa [word] using h
    exact testBit_bitOf s.kind
  | node r children, t, hvalid, h => by
    obtain ⟨⟨p, hp, hrhs⟩, hall⟩ := valid_node_iff.1 hvalid
    have hfirst := first_of_wordAll children t hall h
    rw [← hrhs, ← (firsts_closed p (Array.mem_of_getElem? hp)).1, Nat.testBit_and,
      Bool.and_eq_true] at hfirst
    rw [symbol_node hp]
    exact hfirst.2

lemma first_of_wordAll : ∀ (ds : List Derivation) (t : Token), validAll ds →
    (wordAll ds).head? = some t →
    (firstOf firstSets (ds.map symbol)).testBit t.kind.ctorIdx
  | [], _, _, h => by cases h
  | d :: ds, t, hvalid, h => by
    rw [validAll, Bool.and_eq_true] at hvalid
    rw [map_cons, firstOf, Nat.testBit_or, Bool.or_eq_true]
    cases hword : d.word with
    | nil =>
      rw [wordAll, hword, nil_append] at h
      rw [nullable_of_word d hvalid.1 hword, if_pos rfl]
      exact .inr (first_of_wordAll ds t hvalid.2 h)
    | cons u us =>
      rw [wordAll, hword] at h
      exact .inl (first_of_word d t hvalid.1 (by rw [hword]; exact h))

end

end Derivation

namespace Parser

open Xdr.Derivation

variable {table : ParseTable} (C : Certificate table)

def lookaheadOf (tokens : List Token) : Option Terminal := tokens.head?.map (·.kind)

def Ready (k : Nat) (d : Derivation) (a : Option Terminal) (j : Nat) : Prop :=
  C.moves k d.symbol j ∧
    match d with
    | .leaf _ => True
    | .node r _ => C.holds k ⟨r, 0⟩ a

lemma ready_of_item {k : Nat} {i : Item} {ds : List Derivation} {tail : List Token}
    (hi : C.holds k i (lookaheadOf tail)) (hrest : i.rest = d.symbol :: ds.map symbol)
    (hd : d.valid) (hds : validAll ds) :
    ∃ j, Ready C k d (lookaheadOf (wordAll ds ++ tail)) j ∧ C.holds j i.next (lookaheadOf tail) := by
  obtain ⟨j, hmove, hnext⟩ := C.advance hi hrest
  refine ⟨j, ⟨hmove, ?_⟩, hnext⟩
  cases d with
  | leaf t => trivial
  | node r children =>
    obtain ⟨⟨p, hp, -⟩, -⟩ := valid_node_iff.1 hd
    rw [symbol_node hp] at hrest
    refine C.expect hi hrest (mem_rulesOf.2 ⟨p, hp, rfl⟩) ?_
    cases hword : wordAll ds with
    | nil => exact .inr ⟨nullable_of_wordAll ds hds hword, rfl⟩
    | cons t ts => exact .inl ⟨t.kind, rfl, first_of_wordAll ds t hds (by rw [hword]; rfl)⟩

mutual

lemma tree_steps : ∀ (d : Derivation) (stack : List Frame) (tail : List Token) (j : Nat),
    d.valid → d.symbol ≠ .nonterminal .start →
    Ready C (top stack) d (lookaheadOf tail) j →
    Steps table d.nodes ⟨stack, d.word ++ tail⟩ ⟨⟨j, d⟩ :: stack, tail⟩
  | .leaf t, stack, tail, j, _, _, hready => by
    have hact : table.action? (Configuration.state ⟨stack, t :: tail⟩)
        (Configuration.lookahead ⟨stack, t :: tail⟩) = some (.shift j) := by
      rw [state_eq_top]
      exact C.shift_iff.2 ⟨t.kind, rfl, hready.1⟩
    exact .single (step_shift hact rfl)
  | .node r children, stack, tail, j, hvalid, hstart, hready => by
    obtain ⟨⟨p, hp, hrhs⟩, hall⟩ := valid_node_iff.1 hvalid
    have hrest : Item.rest ⟨r, 0⟩ = children.map symbol := by
      rw [Item.rest, hp]
      exact hrhs
    obtain ⟨frames, htrees, hsteps, hdone⟩ :=
      forest_steps children stack tail ⟨r, 0⟩ hall hrest hready.2
    have hact : table.action? (Configuration.state ⟨frames ++ stack, tail⟩)
        (Configuration.lookahead ⟨frames ++ stack, tail⟩) = some (.reduce r) := by
      rw [state_eq_top]
      refine C.reduce_iff.2 ⟨?_, _, hdone, ?_, rfl⟩
      · rintro rfl
        exact hstart rfl
      · rw [Item.rest, hp]
        simp [hrhs]
    have hlength : frames.length = p.rhs.length := by
      rw [hrhs, ← htrees]
      simp [trees]
    have hmove := hready.1
    rw [symbol_node hp] at hmove
    have hreduce := step_reduce hact hp rfl hlength (C.goto_iff.2 hmove)
    rw [htrees] at hreduce
    exact hsteps.trans (.single hreduce)

lemma forest_steps : ∀ (ds : List Derivation) (stack : List Frame) (tail : List Token) (i : Item),
    validAll ds → i.rest = ds.map symbol → C.holds (top stack) i (lookaheadOf tail) →
    ∃ frames, trees frames = ds ∧
      Steps table (nodesAll ds) ⟨stack, wordAll ds ++ tail⟩ ⟨frames ++ stack, tail⟩ ∧
      C.holds (top (frames ++ stack)) ⟨i.rule, i.dot + ds.length⟩ (lookaheadOf tail)
  | [], stack, tail, i, _, _, hi => ⟨[], rfl, .refl _, hi⟩
  | d :: ds, stack, tail, i, hvalid, hrest, hi => by
    rw [validAll, Bool.and_eq_true] at hvalid
    have hstart : d.symbol ≠ .nonterminal .start := by
      intro he
      refine Item.head?_rest_ne_start i ?_
      rw [hrest, map_cons, head?_cons, he]
    obtain ⟨j, hready, hnext⟩ := ready_of_item C hi hrest hvalid.1 hvalid.2
    have hfirst := tree_steps d stack (wordAll ds ++ tail) j hvalid.1 hstart hready
    obtain ⟨frames, htrees, hsteps, hdone⟩ :=
      forest_steps ds (⟨j, d⟩ :: stack) tail i.next hvalid.2 (Item.rest_next hrest) hnext
    refine ⟨frames ++ [⟨j, d⟩], ?_, ?_, ?_⟩
    · rw [← htrees]
      simp [trees]
    · rw [wordAll, append_assoc, append_assoc]
      exact hfirst.trans hsteps
    · rw [append_assoc]
      simpa [Item.next, Nat.add_assoc, Nat.add_comm 1] using hdone

end

include C

lemma steps_accepted (h : d.Spells tokens) :
    ∃ c, Steps table d.nodes ⟨[], tokens⟩ c ∧ step table c = .accepted d := by
  obtain ⟨hvalid, hsymbol, rfl⟩ := h
  have hrest : Item.rest ⟨0, 0⟩ = [d].map symbol := by
    rw [map_singleton, hsymbol]
    rfl
  have hall : validAll [d] := by simp [validAll, hvalid]
  obtain ⟨frames, htrees, hsteps, hdone⟩ := forest_steps C [d] [] [] ⟨0, 0⟩ hall hrest C.initial
  simp only [wordAll, nodesAll, append_nil, Nat.add_zero] at hsteps hdone
  have hact : table.action? (Configuration.state ⟨frames, []⟩)
      (Configuration.lookahead ⟨frames, []⟩) = some .accept := by
    rw [state_eq_top]
    exact C.accept_iff.2 ⟨_, hdone, rfl, rfl⟩
  obtain ⟨f, rfl, hf⟩ : ∃ f, frames = [f] ∧ f.tree = d := by
    simpa [trees, map_eq_singleton_iff, reverse_eq_cons_iff] using htrees
  exact ⟨_, hsteps, hf ▸ step_accept hact rfl⟩

lemma run_of_spells (h : d.Spells tokens) {fuel : Nat} (hfuel : 5 * tokens.length + 1 < fuel) :
    run table fuel ⟨[], tokens⟩ = .ok d := by
  have hnodes := nodes_le d h.valid
  rw [h.symbol, price, h.word] at hnodes
  obtain ⟨c, hsteps, haccepted⟩ := steps_accepted C h
  obtain ⟨more, rfl⟩ : ∃ more, fuel = d.nodes + (more + 1) := ⟨fuel - d.nodes - 1, by omega⟩
  rw [hsteps.run, run, haccepted]

lemma spells_unique {e : Derivation} (hd : d.Spells tokens) (he : e.Spells tokens) : d = e := by
  have hrun := run_of_spells C hd (Nat.lt_succ_self _)
  rw [run_of_spells C he (Nat.lt_succ_self _)] at hrun
  exact (Except.ok.inj hrun).symm

end Parser

namespace Derivation

def kinds (tokens : List Token) : List Terminal := tokens.map (·.kind)

lemma kinds_append (us vs : List Token) : kinds (us ++ vs) = kinds us ++ kinds vs :=
  map_append

mutual

lemma derives_of_valid : ∀ d : Derivation, d.valid → Derives d.symbol (kinds d.word)
  | leaf t, _ => .terminal t.kind
  | node r children, h => by
    obtain ⟨⟨p, hp, hrhs⟩, hall⟩ := valid_node_iff.1 h
    rw [symbol_node hp]
    refine .rule p _ (Array.mem_of_getElem? hp) ?_
    rw [hrhs]
    exact derivesAll_of_valid children hall

lemma derivesAll_of_valid : ∀ ds : List Derivation, validAll ds →
    DerivesAll (ds.map symbol) (kinds (wordAll ds))
  | [], _ => .nil
  | d :: ds, h => by
    rw [validAll, Bool.and_eq_true] at h
    rw [wordAll, kinds_append]
    exact .cons _ _ _ _ (derives_of_valid d h.1) (derivesAll_of_valid ds h.2)

end

mutual

lemma valid_of_derives : ∀ {s : Symbol} {w : List Terminal}, Derives s w →
    ∀ tokens, kinds tokens = w → ∃ d : Derivation, d.valid ∧ d.symbol = s ∧ d.word = tokens
  | _, _, .terminal t, tokens, h => by
    obtain ⟨token, rfl, hkind⟩ := map_eq_singleton_iff.1 h
    exact ⟨leaf token, rfl, by rw [symbol, hkind], rfl⟩
  | _, _, .rule p w member hall, tokens, h => by
    obtain ⟨r, hr⟩ := Array.getElem?_of_mem member
    obtain ⟨ds, hvalid, hsymbols, hword⟩ := valid_of_derivesAll hall tokens h
    exact ⟨node r ds, valid_node_iff.2 ⟨⟨p, hr, hsymbols.symm⟩, hvalid⟩, symbol_node hr, hword⟩

lemma valid_of_derivesAll : ∀ {ss : List Symbol} {w : List Terminal}, DerivesAll ss w →
    ∀ tokens, kinds tokens = w →
      ∃ ds : List Derivation, validAll ds ∧ ds.map symbol = ss ∧ wordAll ds = tokens
  | _, _, .nil, tokens, h => ⟨[], rfl, rfl, (map_eq_nil_iff.1 h).symm⟩
  | _, _, .cons s ss u v hs hss, tokens, h => by
    obtain ⟨us, vs, rfl, hu, hv⟩ := map_eq_append_iff.1 h
    obtain ⟨d, hvalid, hsymbol, hword⟩ := valid_of_derives hs us hu
    obtain ⟨ds, hvalids, hsymbols, hwords⟩ := valid_of_derivesAll hss vs hv
    refine ⟨d :: ds, ?_, ?_, ?_⟩
    · rw [validAll, hvalid, hvalids, Bool.and_self]
    · rw [map_cons, hsymbol, hsymbols]
    · rw [wordAll, hword, hwords]

end

lemma isSpecification_iff :
    IsSpecification (kinds tokens) ↔ ∃ d : Derivation, d.Spells tokens := by
  constructor
  · intro h
    obtain ⟨d, hvalid, hsymbol, hword⟩ := valid_of_derives h tokens rfl
    exact ⟨d, hvalid, hsymbol, hword⟩
  · rintro ⟨d, hvalid, hsymbol, rfl⟩
    rw [IsSpecification, ← hsymbol]
    exact derives_of_valid d hvalid

end Derivation

end Xdr

/-! ## The parser stops at the first impossible token -/

namespace Xdr

open Automaton Grammar Xdr.Derivation List

variable {stack : List Frame} {t : Token} {n : Nat}

namespace Grammar

/-- How deep the shallowest derivation of a nonterminal is. -/
def depth : Nonterminal → Nat
  | .value | .typeSpecifier | .declaration | .specification => 0
  | .enumVariant | .fields | .caseLabel | .defaultSpec | .constDef | .typedefDef | .start => 1
  | .enumBody | .moreVariants | .structBody | .caseLabels | .definition => 2
  | .caseSpec | .enumDef | .structDef | .definitions => 3
  | .caseSpecs => 4
  | .unionBody => 5
  | .unionDef => 6

def Symbol.nonterminal? : Symbol → Option Nonterminal
  | .terminal _ => none
  | .nonterminal n => some n

lemma exists_shallow_rule (n : Nonterminal) :
    ∃ p ∈ productions.toList, p.lhs = n ∧
      ∀ x ∈ p.rhs, ∀ m ∈ Symbol.nonterminal? x, depth m < depth n := by
  cases n <;> decide +kernel

lemma derivesAll_of_forall {ss : List Symbol} (h : ∀ s ∈ ss, ∃ w, Derives s w) :
    ∃ w, DerivesAll ss w := by
  induction ss with
  | nil => exact ⟨[], .nil⟩
  | cons s ss ih =>
    obtain ⟨u, hu⟩ := h s (.head _)
    obtain ⟨v, hv⟩ := ih fun x hx => h x (.tail s hx)
    exact ⟨u ++ v, .cons s ss u v hu hv⟩

lemma exists_derives (s : Symbol) : ∃ w, Derives s w := by
  cases s with
  | terminal t => exact ⟨[t], .terminal t⟩
  | nonterminal n =>
    induction hd : depth n using Nat.strong_induction_on generalizing n with
    | _ d ih =>
      obtain ⟨p, hp, rfl, hdepth⟩ := exists_shallow_rule n
      have hall : ∀ x ∈ p.rhs, ∃ w, Derives x w := by
        intro x hx
        cases x with
        | terminal t => exact ⟨[t], .terminal t⟩
        | nonterminal m => exact ih (depth m) (hd ▸ hdepth _ hx m rfl) m rfl
      obtain ⟨w, hw⟩ := derivesAll_of_forall hall
      exact ⟨w, .rule p w (Array.mem_toList_iff.1 hp) hw⟩

lemma exists_derivesAll (ss : List Symbol) : ∃ w, DerivesAll ss w :=
  derivesAll_of_forall fun s _ => exists_derives s

end Grammar

namespace Parser

variable {table : ParseTable} {C : Certificate table}

lemma length_takeWhile_lt {α : Type} [DecidableEq α] {l : List α} {x y : α}
    (h : y ∈ l.takeWhile (· ≠ x)) :
    (l.takeWhile (· ≠ y)).length < (l.takeWhile (· ≠ x)).length := by
  induction l with
  | nil => cases h
  | cons z l ih =>
    by_cases hx : z = x
    · simp [hx] at h
    · have hcons : (z :: l).takeWhile (· ≠ x) = z :: l.takeWhile (· ≠ x) :=
        takeWhile_cons_of_pos (by simpa using hx)
      rw [hcons] at h ⊢
      by_cases hy : z = y
      · simp [hy]
      · have hl := ih ((mem_cons.1 h).resolve_left (Ne.symm hy))
        rw [takeWhile_cons_of_pos (by simpa using hy)]
        simpa using hl

lemma items_induction {k : Nat} {P : Item → Prop}
    (kernel : ∀ i ∈ C.items k, 0 < i.dot ∨ (i = ⟨0, 0⟩ ∧ k = 0) → P i)
    (expected : ∀ i ∈ C.items k, ∀ j ∈ C.items k, i.dot = 0 →
      j.rest.head? = some (.nonterminal i.lhs) → P j → P i) :
    ∀ i ∈ C.items k, P i := by
  intro i
  induction hn : ((C.items k).takeWhile (· ≠ i)).length using Nat.strong_induction_on
    generalizing i with
  | _ n ih =>
    intro hi
    rcases Nat.eq_zero_or_pos i.dot with hdot | hdot
    · rcases C.opened hi hdot with ⟨hrule, hk⟩ | ⟨j, hj, hhead⟩
      · exact kernel i hi (.inr ⟨by cases i; simp_all, hk⟩)
      · have hjk := takeWhile_subset _ hj
        exact expected i hi j hjk hdot hhead (ih _ (hn ▸ length_takeWhile_lt hj) j rfl hjk)
    · exact kernel i hi (.inl hdot)

/-- `Continues stack i`: with anything that the item's rest stands for behind it, the stack can be
continued to a specification. -/
def Continues (stack : List Frame) (i : Item) : Prop :=
  ∀ u, DerivesAll i.rest u → ∃ w, IsSpecification (kinds (wordAll (trees stack)) ++ u ++ w)

lemma Continues.expected {i j : Item} (hj : Continues stack j) (hdot : i.dot = 0)
    (hhead : j.rest.head? = some (.nonterminal i.lhs)) : Continues stack i := by
  intro u hu
  have hlhs : i.lhs ≠ .start := fun he => Item.head?_rest_ne_start j (he ▸ hhead)
  obtain ⟨p, hp, hpl⟩ := Item.production_of_lhs hlhs
  obtain ⟨more, hrest⟩ := List.head?_eq_some_iff.1 hhead
  obtain ⟨v, hv⟩ := exists_derivesAll more
  have hrhs : i.rest = p.rhs := by
    rw [Item.rest, hp, hdot]
    rfl
  have hrule : Derives (.nonterminal i.lhs) u :=
    hpl ▸ .rule p u (Array.mem_of_getElem? hp) (hrhs ▸ hu)
  obtain ⟨w, hw⟩ := hj (u ++ v) (hrest ▸ .cons _ _ _ _ hrule hv)
  exact ⟨v ++ w, by simpa using hw⟩

lemma Continues.advance {f : Frame} {i : Item} (hi : Continues stack i)
    (hvalid : f.tree.valid) (hhead : i.rest.head? = some f.tree.symbol) :
    Continues (f :: stack) i.next := by
  intro u hu
  obtain ⟨more, hrest⟩ := List.head?_eq_some_iff.1 hhead
  rw [Item.rest_next hrest] at hu
  obtain ⟨w, hw⟩ :=
    hi (kinds f.tree.word ++ u) (hrest ▸ .cons _ _ _ _ (derives_of_valid f.tree hvalid) hu)
  refine ⟨w, ?_⟩
  simpa [kinds, wordAll_append, wordAll] using hw

lemma Follows.continues (h : Follows C stack) : ∀ i ∈ C.items (top stack), Continues stack i := by
  induction h with
  | nil =>
    refine items_induction ?_ fun i _ j _ hdot hhead hj => hj.expected hdot hhead
    rintro i hi (hdot | ⟨rfl, -⟩)
    · exact absurd (C.dot_initial hi) (Nat.ne_of_gt hdot)
    · intro u hu
      cases hu with
      | cons _ _ w v hspec hnil =>
        cases hnil
        refine ⟨[], ?_⟩
        rw [append_nil, append_nil]
        exact hspec
  | @push f stack valid move below ih =>
    refine items_induction ?_ fun i _ j _ hdot hhead hj => hj.expected hdot hhead
    rintro i hi (hdot | ⟨-, htop⟩)
    · obtain ⟨i₀, hi₀, rfl, hhead⟩ := C.backed move hi hdot
      exact (ih i₀ hi₀).advance valid hhead
    · exact absurd htop (C.ne_initial move)

lemma Follows.exists_item (h : Follows C stack) : ∃ i, i ∈ C.items (top stack) := by
  cases h with
  | nil => exact ⟨_, C.item_of_holds C.initial⟩
  | push valid move below => exact C.item_of_move move

lemma Follows.viable (h : Follows C stack) : IsViable (kinds (wordAll (trees stack))) := by
  obtain ⟨i, hi⟩ := h.exists_item
  obtain ⟨u, hu⟩ := exists_derivesAll i.rest
  obtain ⟨w, hw⟩ := h.continues i hi u hu
  exact ⟨u ++ w, by rwa [← append_assoc]⟩

variable (table) in
lemma step_cons (stack : List Frame) (t : Token) :
    (∃ stack', ∀ x, step table ⟨stack, t :: x⟩ = .next ⟨stack', t :: x⟩) ∨
    (∃ stack', ∀ x, step table ⟨stack, t :: x⟩ = .next ⟨stack', x⟩) ∨
    (∀ x c, step table ⟨stack, t :: x⟩ ≠ .next c) := by
  have hstate : ∀ s x, Configuration.state ⟨s, t :: x⟩ = top s := fun _ _ => state_eq_top _
  cases hact : table.action? (top stack) (some t.kind) with
  | none => exact .inr (.inr fun x c => by simp [step, hstate, hact])
  | some act =>
    cases act with
    | shift j => exact .inr (.inl ⟨⟨j, .leaf t⟩ :: stack, fun x => by simp [step, hstate, hact]⟩)
    | accept =>
      refine .inr (.inr fun x c => ?_)
      cases stack <;> simp [step, hstate, hact]
    | reduce r =>
      cases hp : productions[r]? with
      | none => exact .inr (.inr fun x c => by simp [step, hstate, hact, hp])
      | some p =>
        cases hgoto : table.goto? (top (stack.drop p.rhs.length)) p.lhs with
        | none => exact .inr (.inr fun x c => by simp [step, hstate, hact, hp, hgoto])
        | some j =>
          exact .inl ⟨⟨j, .node r ((stack.take p.rhs.length).reverse.map (·.tree))⟩ ::
            stack.drop p.rhs.length, fun x => by simp [step, hstate, hact, hp, hgoto]⟩

lemma step_nil {d : Configuration} (h : step table ⟨stack, []⟩ = .next d) : d.rest = [] := by
  unfold step at h
  split at h
  · cases h
  · split at h <;> cases h
  · cases h
  · split at h
    · cases h
    · dsimp only at h
      split at h
      · cases h
      · cases h
        rfl

lemma Steps.splice {c : Configuration} {x : List Token} (h : Steps table n c ⟨stack, t :: x⟩) :
    ∃ u, c.rest = u ++ t :: x ∧ ∀ y, Steps table n ⟨c.stack, u ++ t :: y⟩ ⟨stack, t :: y⟩ := by
  generalize hd : (⟨stack, t :: x⟩ : Configuration) = d at h
  induction h with
  | refl c =>
    subst hd
    exact ⟨[], rfl, fun y => .refl _⟩
  | @next n c d e first rest ih =>
    obtain ⟨u, hu, hsteps⟩ := ih hd
    obtain ⟨stack₀, rest₀⟩ := c
    cases rest₀ with
    | nil =>
      rw [step_nil first] at hu
      exact absurd hu.symm (by simp)
    | cons t₀ x₀ =>
      rcases step_cons table stack₀ t₀ with ⟨stack', hstep⟩ | ⟨stack', hstep⟩ | hstep
      · -- A reduction: the tokens stay, and so does the next one.
        obtain rfl : (⟨stack', t₀ :: x₀⟩ : Configuration) = d := by
          simpa [hstep] using first
        refine ⟨u, hu, fun y => .next ?_ (hsteps y)⟩
        cases u with
        | nil =>
          obtain ⟨rfl, -⟩ := List.cons.inj hu
          exact hstep y
        | cons t₁ u =>
          obtain ⟨rfl, -⟩ := List.cons.inj hu
          exact hstep _
      · obtain rfl : (⟨stack', x₀⟩ : Configuration) = d := by
          simpa [hstep] using first
        exact ⟨t₀ :: u, by rw [cons_append, ← hu], fun y => .next (hstep _) (hsteps y)⟩
      · exact absurd first (hstep x₀ d)

def spelled (w : List Terminal) : List Token := w.map fun t => ⟨t, "", .first, .first⟩

lemma kinds_spelled (w : List Terminal) : kinds (spelled w) = w := by
  induction w with
  | nil => rfl
  | cons t w ih => exact congrArg (t :: ·) ih

variable (C)
include C

lemma not_isViable_of_rejected {tokens x : List Token}
    (h : Steps table n ⟨[], tokens⟩ ⟨stack, t :: x⟩)
    (hact : table.action? (top stack) (some t.kind) = none) :
    ∃ before, tokens = before ++ t :: x ∧ ¬ IsViable (kinds (before ++ [t])) := by
  obtain ⟨before, htokens, hsteps⟩ := h.splice
  refine ⟨before, htokens, ?_⟩
  rintro ⟨rest, hspec⟩
  have hkinds : kinds (before ++ [t]) ++ rest = kinds (before ++ t :: spelled rest) := by
    rw [append_cons before t (spelled rest), kinds_append _ (spelled rest), kinds_spelled]
  rw [hkinds, isSpecification_iff] at hspec
  obtain ⟨d, hd⟩ := hspec
  obtain ⟨c, hrun, haccepted⟩ := steps_accepted C hd
  -- Both runs are on the same tokens, and one accepts where the other has no action.
  have hrejected := (hsteps (spelled rest)).run (d.nodes + 1)
  have hok := hrun.run (n + 1)
  rw [show d.nodes + (n + 1) = n + (d.nodes + 1) by omega] at hok
  rw [hok, run, run, haccepted, step_none (by rw [state_eq_top]; exact hact)] at hrejected
  cases hrejected

lemma run_cases (tokens : List Token) {fuel : Nat} (hfuel : 5 * tokens.length + 2 < fuel) :
    (∃ d, run table fuel ⟨[], tokens⟩ = .ok d ∧ d.Spells tokens) ∨
    (∃ k before t after, run table fuel ⟨[], tokens⟩ = .error ⟨k, some t⟩ ∧
      tokens = before ++ t :: after ∧
      IsViable (kinds before) ∧ ¬ IsViable (kinds (before ++ [t]))) ∨
    (∃ k, run table fuel ⟨[], tokens⟩ = .error ⟨k, none⟩ ∧ IsViable (kinds tokens) ∧
      ¬ IsSpecification (kinds tokens)) := by
  have hinitial : Reached C tokens 0 ⟨[], tokens⟩ := reached_initial tokens
  have hbound : 5 * tokens.length + 2 < 0 + fuel := by omega
  rcases run_ends hinitial hbound with hok | ⟨n, ⟨stack, rest⟩, hsteps, hact, herror⟩
  · exact .inl hok
  · have hreached := hsteps.reached hinitial
    have hviable := hreached.follows.viable
    have hword := hreached.word
    rw [state_eq_top] at hact
    cases rest with
    | nil =>
      refine .inr (.inr ⟨_, herror, ?_, ?_⟩)
      · rwa [← hword, append_nil]
      · rw [isSpecification_iff]
        rintro ⟨d, hd⟩
        rw [run_of_spells C hd (by omega)] at herror
        cases herror
    | cons t after =>
      obtain ⟨before, htokens, hnot⟩ := not_isViable_of_rejected C hsteps hact
      refine .inr (.inl ⟨_, before, t, after, herror, htokens, ?_, hnot⟩)
      rw [htokens] at hword
      rwa [← append_cancel_right hword]

end Parser

end Xdr
