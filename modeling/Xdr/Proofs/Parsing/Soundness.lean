import Xdr.Grammar.Derivation
import Mathlib.Data.List.Basic
import Mathlib.Tactic.Linarith

/-!
# Certified parse tables

What the proofs about the parser need of a parse table, whatever automaton it was made from.
-/

namespace Xdr.Automaton

open Grammar

structure Certificate (table : ParseTable) where
  /-- The items of a state. -/
  items : Nat → List Item
  /-- `moves k x j`: the symbol `x` leads from the state `k` to the state `j`. -/
  moves : Nat → Symbol → Nat → Prop
  /-- `holds k i a`: the state `k` has the item `i` with the lookahead `a`. -/
  holds : Nat → Item → Option Terminal → Prop
  item_of_holds : ∀ {k i a}, holds k i a → i ∈ items k
  -- The actions are read off the moves and the completed items.
  shift_iff : ∀ {k a j},
    table.action? k a = some (.shift j) ↔ ∃ t, a = some t ∧ moves k (.terminal t) j
  reduce_iff : ∀ {k a r},
    table.action? k a = some (.reduce r) ↔ r ≠ 0 ∧ ∃ i, holds k i a ∧ i.rest = [] ∧ i.rule = r
  accept_iff : ∀ {k a},
    table.action? k a = some .accept ↔ ∃ i, holds k i a ∧ i.rest = [] ∧ i.rule = 0
  goto_iff : ∀ {k n j}, table.goto? k n = some j ↔ moves k (.nonterminal n) j
  -- The initial state has the start item and nothing in front of a dot; no move leads back to it.
  initial : holds 0 ⟨0, 0⟩ none
  dot_initial : ∀ {i}, i ∈ items 0 → i.dot = 0
  ne_initial : ∀ {k x j}, moves k x j → j ≠ 0
  -- The start rule is completed at the end of the input only, and what may be empty is met in the
  -- initial state only.
  ends : ∀ {k i a}, holds k i a → i.rest = [] → i.rule = 0 → a = none
  nullable_move : ∀ {k x j}, moves k x j → nullable x = true → k = 0
  /-- An item moves on by the symbol behind its dot and keeps its lookaheads. -/
  advance : ∀ {k i a x rest}, holds k i a → i.rest = x :: rest → ∃ j, moves k x j ∧ holds j i.next a
  /-- The symbol behind a dot has a move. -/
  move_of_item : ∀ {k i x}, i ∈ items k → i.rest.head? = some x → ∃ j, moves k x j
  /-- An item in front of a nonterminal brings its rules, with what can follow as lookaheads. -/
  expect : ∀ {k i a b n r rest}, holds k i a → i.rest = .nonterminal n :: rest → r ∈ rulesOf n →
    (∃ t, b = some t ∧ (firstOf firstSets rest).testBit t.ctorIdx = true) ∨
      (rest.all nullable = true ∧ b = a) → holds k ⟨r, 0⟩ b
  /-- A move leads to some item. -/
  item_of_move : ∀ {k x j}, moves k x j → ∃ i, i ∈ items j
  /-- What lies in front of a dot was moved over, wherever the move began. -/
  backed : ∀ {k x j i}, moves k x j → i ∈ items j → 0 < i.dot →
    ∃ i₀ ∈ items k, i₀.next = i ∧ i₀.rest.head? = some x
  /-- A rule other than the start rule is begun because an item before it expects its left side. -/
  opened : ∀ {k i}, i ∈ items k → i.dot = 0 → (i.rule = 0 ∧ k = 0) ∨
    ∃ j ∈ (items k).takeWhile (· ≠ i), j.rest.head? = some (.nonterminal i.lhs)

end Xdr.Automaton

/-! ## What the parser accepts is derived -/

namespace Xdr

open Automaton Grammar List

variable {i : Item} {stack : List Frame} {c d : Configuration} {tokens : List Token} {x : Symbol}
  {p : Production} {count n r k : Nat} {children : List Derivation} {more : List Symbol}

namespace Grammar

lemma mem_rulesOf {n : Nonterminal} :
    r ∈ rulesOf n ↔ ∃ p, productions[r]? = some p ∧ p.lhs = n := by
  simp only [rulesOf, mem_filter, mem_range, decide_eq_true_eq, Option.map_eq_some_iff]
  refine ⟨fun h => h.2, fun h => ⟨?_, h⟩⟩
  obtain ⟨p, hp, -⟩ := h
  exact (Array.getElem?_eq_some_iff.1 hp).1

end Grammar

namespace Automaton.Item

def passed (i : Item) : List Symbol :=
  match productions[i.rule]? with
  | some p => p.rhs.take i.dot
  | none => []

lemma production_of_rest (h : i.rest = x :: more) :
    ∃ p, productions[i.rule]? = some p ∧ p.rhs.drop i.dot = x :: more := by
  rw [rest] at h
  split at h
  · next p hp => exact ⟨p, hp, h⟩
  · cases h

lemma rest_next (h : i.rest = x :: more) : i.next.rest = more := by
  obtain ⟨p, hp, hdrop⟩ := production_of_rest h
  rw [rest, next, hp]
  show p.rhs.drop (i.dot + 1) = more
  rw [← drop_drop, hdrop]
  rfl

lemma passed_next (h : i.rest.head? = some x) : i.next.passed = i.passed ++ [x] := by
  obtain ⟨more, hrest⟩ := List.head?_eq_some_iff.1 h
  obtain ⟨p, hp, hdrop⟩ := production_of_rest hrest
  have hget : p.rhs[i.dot]? = some x := by
    rw [← List.head?_drop, hdrop, List.head?_cons]
  rw [passed, passed, next, hp]
  show p.rhs.take (i.dot + 1) = p.rhs.take i.dot ++ [x]
  rw [take_add_one, hget]
  rfl

lemma passed_of_rest_nil (hp : productions[i.rule]? = some p) (h : i.rest = []) :
    i.passed = p.rhs := by
  rw [rest, hp] at h
  rw [passed, hp]
  exact take_of_length_le (drop_eq_nil_iff.1 h)

lemma head?_rest_ne_start (i : Item) : i.rest.head? ≠ some (.nonterminal .start) := by
  have hrules : ∀ p ∈ productions, Symbol.nonterminal .start ∉ p.rhs := by decide +kernel
  intro h
  obtain ⟨more, hrest⟩ := List.head?_eq_some_iff.1 h
  obtain ⟨p, hp, hdrop⟩ := production_of_rest hrest
  refine hrules p (Array.mem_of_getElem? hp) (mem_of_mem_drop (i := i.dot) ?_)
  rw [hdrop]
  exact .head _

lemma production_of_lhs (h : i.lhs ≠ .start) :
    ∃ p, productions[i.rule]? = some p ∧ p.lhs = i.lhs := by
  cases hp : productions[i.rule]? with
  | none => exact absurd (by simp [lhs, hp]) h
  | some p => exact ⟨p, rfl, by simp [lhs, hp]⟩

end Automaton.Item

namespace Derivation

mutual

def nodes : Derivation → Nat
  | leaf _ => 1
  | node _ children => nodesAll children + 1

def nodesAll : List Derivation → Nat
  | [] => 0
  | d :: ds => d.nodes + nodesAll ds

end

lemma wordAll_append (ds es : List Derivation) :
    wordAll (ds ++ es) = wordAll ds ++ wordAll es := by
  induction ds with
  | nil => rfl
  | cons d ds ih => simp [wordAll, ih]

lemma nodesAll_append (ds es : List Derivation) :
    nodesAll (ds ++ es) = nodesAll ds + nodesAll es := by
  induction ds with
  | nil => simp [nodesAll]
  | cons d ds ih => simp [nodesAll, ih, Nat.add_assoc]

lemma validAll_eq_true_iff {ds : List Derivation} :
    validAll ds ↔ ∀ d ∈ ds, d.valid := by
  induction ds with
  | nil => simp [validAll]
  | cons d ds ih => simp [validAll, ih]

lemma valid_node_iff :
    (node r children).valid ↔
      (∃ p, productions[r]? = some p ∧ p.rhs = children.map symbol) ∧ validAll children := by
  simp [valid, Option.map_eq_some_iff]

lemma symbol_node (hp : productions[r]? = some p) :
    (node r children).symbol = .nonterminal p.lhs := by
  simp [symbol, hp]

/-- `d.Spells tokens`: `d` is a derivation of the tokens as a specification. -/
structure Spells (d : Derivation) (tokens : List Token) : Prop where
  valid : d.valid = true
  symbol : d.symbol = .nonterminal .specification
  word : d.word = tokens

def price : Symbol → Int
  | .terminal _ => 4
  | .nonterminal .start => -2
  | .nonterminal .specification => -1
  | .nonterminal .definitions => 1
  | .nonterminal .definition => 2
  | .nonterminal .caseSpecs => 2
  | .nonterminal .caseLabels => 2
  | .nonterminal _ => 3

lemma price_rule : ∀ p ∈ productions, price (.nonterminal p.lhs) + 1 ≤ (p.rhs.map price).sum := by
  decide +kernel

lemma price_ge (x : Symbol) : -2 ≤ price x := by
  cases x with
  | terminal t => simp [price]
  | nonterminal n => cases n <;> decide

lemma price_nonneg (h : ¬ nullable x) : 0 ≤ price x := by
  cases x with
  | terminal t => simp [price]
  | nonterminal n => cases n <;> simp_all [price, nullable]

mutual

lemma nodes_le : ∀ d : Derivation, d.valid →
    (d.nodes : Int) + price d.symbol ≤ 5 * d.word.length
  | leaf t, _ => by simp [nodes, symbol, price, word]
  | node r children, h => by
    obtain ⟨⟨p, hp, hrhs⟩, hall⟩ := valid_node_iff.1 h
    have hchildren := nodesAll_le children hall
    have hrule := price_rule p (Array.mem_of_getElem? hp)
    rw [hrhs, map_map] at hrule
    rw [symbol_node hp, nodes, word]
    push_cast
    linarith

lemma nodesAll_le : ∀ ds : List Derivation, validAll ds →
    (nodesAll ds : Int) + (ds.map (price ∘ symbol)).sum ≤ 5 * (wordAll ds).length
  | [], _ => by simp [nodesAll, wordAll]
  | d :: ds, h => by
    rw [validAll, Bool.and_eq_true] at h
    have hd := nodes_le d h.1
    have hds := nodesAll_le ds h.2
    rw [nodesAll, wordAll, map_cons, sum_cons, length_append, Function.comp_apply]
    push_cast
    linarith

end

end Derivation

namespace Parser

open Xdr.Derivation

def top : List Frame → Nat
  | [] => 0
  | f :: _ => f.state

lemma state_eq_top (c : Configuration) : c.state = top c.stack := by
  rcases c with ⟨_ | _, _⟩ <;> rfl

def trees (stack : List Frame) : List Derivation := stack.reverse.map (·.tree)

@[simp] lemma trees_cons (f : Frame) (stack : List Frame) :
    trees (f :: stack) = trees stack ++ [f.tree] := by
  simp [trees]

section Certified

variable {table : ParseTable} (C : Certificate table)

/-- A stack that follows the moves of the automaton and holds valid derivations. -/
inductive Follows : List Frame → Prop
  | nil : Follows []
  | push {f : Frame} {stack : List Frame} (valid : f.tree.valid = true)
      (move : C.moves (top stack) f.tree.symbol f.state) (below : Follows stack) :
      Follows (f :: stack)

variable {C}

lemma Follows.eq_nil_of_top (h : Follows C stack) (h0 : top stack = 0) : stack = [] := by
  cases h with
  | nil => rfl
  | push _ move _ => exact absurd h0 (C.ne_initial move)

lemma Follows.valid (h : Follows C stack) : validAll (trees stack) := by
  induction h with
  | nil => rfl
  | push valid _ _ ih =>
    rw [validAll_eq_true_iff] at ih ⊢
    simpa [or_imp, forall_and, valid] using ih

lemma Follows.pop (h : Follows C stack) (hi : i ∈ C.items (top stack)) :
    ∃ popped below, stack = popped ++ below ∧ popped.length = i.dot ∧
      (trees popped).map symbol = i.passed ∧ validAll (trees popped) ∧
      Follows C below ∧ ⟨i.rule, 0⟩ ∈ C.items (top below) := by
  obtain ⟨r, dot⟩ := i
  induction dot generalizing stack with
  | zero =>
    refine ⟨[], stack, rfl, rfl, ?_, rfl, h, hi⟩
    show [] = Item.passed ⟨r, 0⟩
    rw [Item.passed]
    split <;> rfl
  | succ dot ih =>
    cases h with
    | nil => exact absurd (C.dot_initial hi) (Nat.succ_ne_zero dot)
    | @push f stack valid move below =>
      obtain ⟨⟨r₀, dot₀⟩, hi₀, hnext, hhead⟩ := C.backed move hi (Nat.succ_pos dot)
      simp only [Item.next, Item.mk.injEq, Nat.add_right_cancel_iff] at hnext
      obtain ⟨rfl, rfl⟩ := hnext
      obtain ⟨popped, rest, rfl, hlength, hsymbols, hvalid, hrest, hbegun⟩ := ih below hi₀
      refine ⟨f :: popped, rest, rfl, by simp [hlength], ?_, ?_, hrest, hbegun⟩
      · rw [trees_cons, map_append, hsymbols]
        exact (Item.passed_next hhead).symm
      · rw [validAll_eq_true_iff] at hvalid ⊢
        simpa [or_imp, forall_and, valid] using hvalid

def Configuration.lookahead (c : Configuration) : Option Terminal := c.rest.head?.map (·.kind)

lemma step_none (hact : table.action? c.state c.lookahead = none) :
    step table c = .rejected ⟨c.state, c.rest.head?⟩ := by
  rw [Configuration.lookahead] at hact
  rw [step, hact]

lemma step_shift {j : Nat} {t : Token} {rest : List Token}
    (hact : table.action? c.state c.lookahead = some (.shift j)) (hrest : c.rest = t :: rest) :
    step table c = .next ⟨⟨j, .leaf t⟩ :: c.stack, rest⟩ := by
  rw [Configuration.lookahead] at hact
  rw [step, hact]
  simp only [hrest]

lemma step_accept {f : Frame} {below : List Frame}
    (hact : table.action? c.state c.lookahead = some .accept) (hstack : c.stack = f :: below) :
    step table c = .accepted f.tree := by
  rw [Configuration.lookahead] at hact
  rw [step, hact]
  simp only [hstack]

lemma step_reduce {target : Nat} {popped below : List Frame}
    (hact : table.action? c.state c.lookahead = some (.reduce r)) (hp : productions[r]? = some p)
    (hstack : c.stack = popped ++ below) (hlength : popped.length = p.rhs.length)
    (hgoto : table.goto? (top below) p.lhs = some target) :
    step table c = .next ⟨⟨target, .node r (trees popped)⟩ :: below, c.rest⟩ := by
  have htake : c.stack.take p.rhs.length = popped := by rw [hstack, ← hlength, take_left]
  have hdrop : c.stack.drop p.rhs.length = below := by rw [hstack, ← hlength, drop_left]
  have hstate : Configuration.state ⟨below, c.rest⟩ = top below := state_eq_top _
  rw [Configuration.lookahead] at hact
  rw [step, hact]
  simp only [hp, htake, hdrop, hstate, hgoto, trees]

/-- The state of a run: the stack follows the automaton, and its derivations with the tokens not
yet read are the input. Each step so far made one leaf or node. -/
structure Reached (C : Certificate table) (tokens : List Token) (count : Nat)
    (c : Configuration) : Prop where
  follows : Follows C c.stack
  word : wordAll (trees c.stack) ++ c.rest = tokens
  nodes : nodesAll (trees c.stack) = count

lemma reached_initial (tokens : List Token) : Reached C tokens 0 ⟨[], tokens⟩ :=
  ⟨.nil, rfl, rfl⟩

lemma goto_of_begun (hi : ⟨r, 0⟩ ∈ C.items k) (hr : r ≠ 0) :
    ∃ p, productions[r]? = some p ∧ ∃ j, C.moves k (.nonterminal p.lhs) j := by
  rcases C.opened hi rfl with ⟨h0, -⟩ | ⟨i₀, hi₀, hhead⟩
  · exact absurd h0 hr
  · have hlhs : Item.lhs ⟨r, 0⟩ ≠ .start := fun he => Item.head?_rest_ne_start i₀ (he ▸ hhead)
    obtain ⟨p, hp, he⟩ := Item.production_of_lhs hlhs
    obtain ⟨j, hj⟩ := C.move_of_item (takeWhile_subset _ hi₀) hhead
    exact ⟨p, hp, j, he ▸ hj⟩

lemma initial_of_begun (hi : ⟨0, 0⟩ ∈ C.items k) : k = 0 := by
  rcases C.opened hi rfl with ⟨-, hk⟩ | ⟨i₀, -, hhead⟩
  · exact hk
  · exact absurd hhead (Item.head?_rest_ne_start i₀)

lemma step_cases (h : Reached C tokens count c) :
    (∃ c', step table c = .next c' ∧ Reached C tokens (count + 1) c') ∨
    (∃ f, step table c = .accepted f.tree ∧ c.stack = [f] ∧ c.rest = [] ∧
      f.tree.symbol = .nonterminal .specification) ∨
    (table.action? c.state c.lookahead = none ∧
      step table c = .rejected ⟨c.state, c.rest.head?⟩) := by
  cases hact : table.action? c.state c.lookahead with
  | none => exact .inr (.inr ⟨rfl, step_none hact⟩)
  | some act =>
    cases act with
    | shift j =>
      obtain ⟨t, hlook, hm⟩ := C.shift_iff.1 hact
      cases hrest : c.rest with
      | nil => simp [Configuration.lookahead, hrest] at hlook
      | cons token rest =>
        have hkind : token.kind = t := by simpa [Configuration.lookahead, hrest] using hlook
        refine .inl ⟨_, step_shift hact hrest, .push rfl ?_ h.follows, ?_, ?_⟩
        · rw [← state_eq_top, symbol, hkind]
          exact hm
        · rw [← h.word, hrest]
          simp [wordAll_append, wordAll, word]
        · simp [nodesAll_append, nodesAll, nodes, h.nodes]
    | reduce r =>
      obtain ⟨hr, i, hi, hnil, rfl⟩ := C.reduce_iff.1 hact
      have hitem := C.item_of_holds hi
      rw [state_eq_top] at hitem
      obtain ⟨popped, below, hstack, hlength, hsymbols, hvalid, hbelow, hbegun⟩ :=
        h.follows.pop hitem
      -- The left side of the rule was expected below, so there is a move on it.
      obtain ⟨p, hp, j, hj⟩ := goto_of_begun hbegun hr
      have hpassed := Item.passed_of_rest_nil hp hnil
      have hwidth : popped.length = p.rhs.length := by
        rw [← hpassed, ← hsymbols]
        simp [trees]
      refine .inl ⟨_, step_reduce hact hp hstack hwidth (C.goto_iff.2 hj), .push ?_ ?_ hbelow, ?_, ?_⟩
      · exact valid_node_iff.2 ⟨⟨p, hp, by rw [hsymbols, hpassed]⟩, hvalid⟩
      · rw [symbol_node hp]
        exact hj
      · rw [← h.word, hstack]
        simp [trees, wordAll_append, wordAll, word]
      · rw [← h.nodes, hstack]
        simp [trees, nodesAll_append, nodesAll, nodes, Nat.add_assoc]
    | accept =>
      obtain ⟨i, hi, hnil, hrule⟩ := C.accept_iff.1 hact
      have hend : c.rest = [] := by
        have hnone := C.ends hi hnil hrule
        simpa [Configuration.lookahead] using hnone
      have hitem := C.item_of_holds hi
      rw [state_eq_top] at hitem
      obtain ⟨popped, below, hstack, -, hsymbols, -, hbelow, hbegun⟩ := h.follows.pop hitem
      rw [hrule] at hbegun
      obtain rfl := hbelow.eq_nil_of_top (initial_of_begun hbegun)
      have hp : productions[i.rule]? = some (pass .start [.nonterminal .specification]) := by
        rw [hrule]
        rfl
      rw [Item.passed_of_rest_nil hp hnil] at hsymbols
      -- What was popped stands for the right side of the start rule, which is one symbol.
      obtain ⟨f, rfl, hf⟩ : ∃ f, popped = [f] ∧ f.tree.symbol = .nonterminal .specification := by
        simpa [trees, Grammar.pass, map_eq_singleton_iff, reverse_eq_cons_iff] using hsymbols
      rw [append_nil] at hstack
      exact .inr (.inl ⟨f, step_accept hact hstack, hstack, hend, hf⟩)

variable (table) in
inductive Steps : Nat → Configuration → Configuration → Prop
  | refl (c : Configuration) : Steps 0 c c
  | next {n : Nat} {c d e : Configuration} (first : step table c = .next d) (rest : Steps n d e) :
      Steps (n + 1) c e

lemma Steps.trans {m : Nat} {e : Configuration} (h : Steps table m c d) (h' : Steps table n d e) :
    Steps table (m + n) c e := by
  induction h with
  | refl c => rwa [Nat.zero_add]
  | next first _ ih =>
    rw [Nat.add_right_comm]
    exact .next first (ih h')

lemma Steps.single (h : step table c = .next d) : Steps table 1 c d :=
  .next h (.refl d)

lemma Steps.run (h : Steps table n c d) (count : Nat) :
    run table (n + count) c = run table count d := by
  induction h with
  | refl c => rw [Nat.zero_add]
  | next first _ ih => rw [Nat.add_right_comm, Parser.run, first, ← ih]

lemma Steps.reached (h : Steps table n c d) (hc : Reached C tokens count c) :
    Reached C tokens (count + n) d := by
  induction h generalizing count with
  | refl c => exact hc
  | next first _ ih =>
    rcases step_cases hc with ⟨c', hstep, hc'⟩ | ⟨f, hstep, -⟩ | ⟨-, hstep⟩
    · rw [first] at hstep
      cases hstep
      rw [← Nat.add_assoc, Nat.add_right_comm]
      exact ih hc'
    · rw [first] at hstep
      cases hstep
    · rw [first] at hstep
      cases hstep

lemma Follows.price_le (h : Follows C stack) : -2 ≤ ((trees stack).map (price ∘ symbol)).sum := by
  induction h with
  | nil => decide
  | @push f stack valid move below ih =>
    rw [trees_cons, map_append, sum_append, map_singleton, sum_singleton,
      Function.comp_apply]
    by_cases hnull : nullable f.tree.symbol
    · obtain rfl := below.eq_nil_of_top (C.nullable_move move hnull)
      have hleast := price_ge f.tree.symbol
      show -2 ≤ 0 + price f.tree.symbol
      omega
    · have hpos := price_nonneg hnull
      omega

lemma Reached.count_le (h : Reached C tokens count c) : count ≤ 5 * tokens.length + 2 := by
  have hnodes := nodesAll_le _ h.follows.valid
  have hprice := h.follows.price_le
  have hlength : (wordAll (trees c.stack)).length ≤ tokens.length := by
    rw [← h.word, length_append]
    omega
  rw [h.nodes] at hnodes
  omega

lemma run_ends {fuel : Nat} (h : Reached C tokens count c)
    (hfuel : 5 * tokens.length + 2 < count + fuel) :
    (∃ d, run table fuel c = .ok d ∧ d.Spells tokens) ∨
    ∃ n c', Steps table n c c' ∧ table.action? c'.state c'.lookahead = none ∧
      run table fuel c = .error ⟨c'.state, c'.rest.head?⟩ := by
  induction fuel generalizing c count with
  | zero =>
    have hcount := h.count_le
    omega
  | succ fuel ih =>
    rcases step_cases h with ⟨c', hstep, hc'⟩ | ⟨f, hstep, hstack, hrest, hsymbol⟩ | ⟨hact, hstep⟩
    · rw [run, hstep]
      rcases ih hc' (by omega) with hok | ⟨n, c'', hsteps, hact, herror⟩
      · exact .inl hok
      · exact .inr ⟨n + 1, c'', .next hstep hsteps, hact, herror⟩
    · have hvalid := h.follows.valid
      have hword := h.word
      rw [hstack] at hvalid hword
      rw [run, hstep]
      refine .inl ⟨f.tree, rfl, ?_, hsymbol, ?_⟩
      · simpa [trees, validAll] using hvalid
      · simpa [trees, wordAll, hrest] using hword
    · rw [run, hstep]
      exact .inr ⟨0, c, .refl c, hact, rfl⟩

end Certified

end Parser

end Xdr
