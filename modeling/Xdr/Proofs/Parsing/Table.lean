import Xdr.Proofs.Keys
import Xdr.Proofs.Parsing.Soundness

/-!
# What the parse table guarantees

The automaton is a closed term. What the proofs about the parser need of it are finitely many facts
about its items, moves and lookaheads.
-/

namespace Xdr.Automaton

open Grammar List

variable {k j r : Nat} {i : Item} {a : Option Terminal} {n : Nonterminal} {act : Action}
  {rest : List Symbol} {m : Symbol × Nat} {x : Symbol}

def itemsAt (k : Nat) : List Item := ((states[k]?).map (·.items)).getD []

def movesAt (k : Nat) : List (Symbol × Nat) := ((states[k]?).map (·.moves)).getD []

def actionsAt (k : Nat) : List (Option Terminal × Action) :=
  ((states[k]?).map fun s => (rowOf k s).actions).getD []

def itemsBefore (k : Nat) (i : Item) : List Item := (itemsAt k).takeWhile (· ≠ i)

abbrev lookaheadsAt (k : Nat) (i : Item) : Nat := entry lookaheads (slot k i)

def Within (x y : Nat) : Prop := x &&& y = x

instance (x y : Nat) : Decidable (Within x y) := inferInstanceAs (Decidable (_ = _))

def Flow.Balanced (f : Flow) : Prop :=
  Within (f.added ||| if f.carries then entry lookaheads f.source else 0) (entry lookaheads f.target)

instance (f : Flow) : Decidable f.Balanced := inferInstanceAs (Decidable (Within _ _))

def Advances (k : Nat) : Prop :=
  ∀ i ∈ itemsAt k, ∀ x ∈ i.rest.head?, ∃ m ∈ movesAt k, m.1 = x ∧ i.next ∈ itemsAt m.2

def Expects (k : Nat) : Prop := ∀ n ∈ heads (itemsAt k), ∀ r ∈ rulesOf n, ⟨r, 0⟩ ∈ itemsAt k

/-- A move leads to items, and not to the initial state. An item with something in front of its dot
comes from an item of the state before, whichever that is. -/
def Backed (k : Nat) : Prop :=
  ∀ m ∈ movesAt k, m.2 ≠ 0 ∧ itemsAt m.2 ≠ [] ∧ ∀ i ∈ itemsAt m.2, 0 < i.dot →
    ∃ j ∈ itemsAt k, j.next = i ∧ j.rest.head? = some m.1

/-- A rule is begun because an item listed before it expects its left side; the start rule is begun
in the initial state only. -/
def Opened (k : Nat) : Prop :=
  ∀ i ∈ itemsAt k, i.dot = 0 → (i.rule = 0 ∧ k = 0) ∨
    ∃ j ∈ itemsBefore k i, j.rest.head? = some (.nonterminal i.lhs)

def Deterministic (k : Nat) : Prop :=
  ((actionsAt k).map (·.1)).Nodup ∧ ((movesAt k).map (·.1)).Nodup

/-- The start rule is completed at the end of the input only, and what may be empty is met in the
initial state only. -/
def Ends (k : Nat) : Prop :=
  (∀ i ∈ itemsAt k, i.rest = [] → i.rule = 0 → members (lookaheadsAt k i) = [none]) ∧
    ∀ m ∈ movesAt k, nullable m.1 = true → k = 0

instance (k : Nat) : Decidable (Advances k) := inferInstanceAs (Decidable (∀ _ ∈ _, _))
instance (k : Nat) : Decidable (Expects k) := inferInstanceAs (Decidable (∀ _ ∈ _, _))
instance (k : Nat) : Decidable (Backed k) := inferInstanceAs (Decidable (∀ _ ∈ _, _))
instance (k : Nat) : Decidable (Opened k) := inferInstanceAs (Decidable (∀ _ ∈ _, _))
instance (k : Nat) : Decidable (Deterministic k) := inferInstanceAs (Decidable (_ ∧ _))
instance (k : Nat) : Decidable (Ends k) := inferInstanceAs (Decidable (_ ∧ _))

set_option maxRecDepth 100000 in
lemma states_checked :
    (∀ k < states.size, Advances k ∧ Expects k ∧ Backed k ∧ Opened k ∧ Deterministic k ∧ Ends k) ∧
      (∀ f ∈ flows, f.Balanced) ∧
      (∀ i ∈ itemsAt 0, i.dot = 0) ∧
      ⟨0, 0⟩ ∈ itemsAt 0 ∧ (lookaheadsAt 0 ⟨0, 0⟩).testBit endBit := by
  decide +kernel

lemma state_of_item (h : i ∈ itemsAt k) : ∃ s, states[k]? = some s ∧ i ∈ s.items := by
  cases hs : states[k]? with
  | none => simp [itemsAt, hs] at h
  | some s => exact ⟨s, rfl, by simpa [itemsAt, hs] using h⟩

lemma lt_size_of_item (h : i ∈ itemsAt k) : k < states.size := by
  obtain ⟨s, hs, -⟩ := state_of_item h
  exact (Array.getElem?_eq_some_iff.1 hs).1

lemma lt_size_of_move (h : m ∈ movesAt k) : k < states.size := by
  by_contra hk
  have hnone : states[k]? = none := Array.getElem?_eq_none (by omega)
  simp [movesAt, hnone] at h

def bitIndex : Option Terminal → Nat
  | none => endBit
  | some t => t.ctorIdx

lemma Within.testBit {x y n : Nat} (h : Within x y) (hx : x.testBit n) :
    y.testBit n := by
  rw [← h, Nat.testBit_and, Bool.and_eq_true] at hx
  exact hx.2

lemma mem_members {set : Nat} : a ∈ members set ↔ set.testBit (bitIndex a) := by
  cases a with
  | none => simp [members, bitIndex]
  | some t =>
    have ht := Terminal.mem_all t
    by_cases he : set.testBit endBit = true <;> simp [members, bitIndex, ht, he]

structure Holds (k : Nat) (i : Item) (a : Option Terminal) : Prop where
  item : i ∈ itemsAt k
  lookahead : (lookaheadsAt k i).testBit (bitIndex a) = true

lemma holds_start : Holds 0 ⟨0, 0⟩ none := states_checked.2.2.2.elim Holds.mk

lemma flow_mem {s : State} {f : Flow} (hs : states[k]? = some s) (hi : i ∈ s.items)
    (hf : f ∈ flowsOfItem k s.moves i) : f ∈ flows := by
  have hzip : (s, k) ∈ states.toList.zipIdx := by
    rw [mem_zipIdx_iff_getElem?]
    simpa using hs
  exact mem_flatMap.2 ⟨(s, k), hzip, mem_flatMap.2 ⟨i, hi, hf⟩⟩

lemma testBit_of_flow {source target added n : Nat} {carries : Bool}
    (hf : ⟨source, target, added, carries⟩ ∈ flows)
    (h : added.testBit n = true ∨
      carries ∧ (entry lookaheads source).testBit n) :
    (entry lookaheads target).testBit n := by
  have hbalanced := states_checked.2.1 _ hf
  rw [Flow.Balanced] at hbalanced
  refine hbalanced.testBit ?_
  rw [Nat.testBit_or, Bool.or_eq_true]
  rcases h with h | ⟨hc, h⟩
  · exact .inl h
  · exact .inr (by rwa [if_pos hc])

lemma find?_move (hm : m ∈ movesAt k) : (movesAt k).find? (·.1 = m.1) = some m :=
  find?_of_nodup_map (states_checked.1 k (lt_size_of_move hm)).2.2.2.2.1.2 hm

lemma Holds.advance (h : Holds k i a) (hx : i.rest = x :: rest) :
    ∃ j, (x, j) ∈ movesAt k ∧ Holds j i.next a := by
  obtain ⟨s, hs, hi⟩ := state_of_item h.item
  have hsome : x ∈ i.rest.head? := by simp [hx]
  obtain ⟨⟨y, j⟩, hm, rfl, hnext⟩ :=
    (states_checked.1 k (lt_size_of_item h.item)).1 i h.item x hsome
  have hmoves : movesAt k = s.moves := by simp [movesAt, hs]
  have hfind : s.moves.find? (·.1 = y) = some (y, j) := by
    simpa [hmoves] using find?_move hm
  have hflow : ⟨slot k i, slot j i.next, 0, true⟩ ∈ flows := by
    refine flow_mem hs hi ?_
    simp [flowsOfItem, hx, hfind]
  exact ⟨j, hm, hnext, testBit_of_flow hflow (.inr ⟨rfl, h.lookahead⟩)⟩

lemma Holds.expect {b : Option Terminal} (h : Holds k i a) (hx : i.rest = .nonterminal n :: rest)
    (hr : r ∈ rulesOf n)
    (hb : (∃ t, b = some t ∧ (firstOf firstSets rest).testBit t.ctorIdx) ∨
      (rest.all nullable ∧ b = a)) : Holds k ⟨r, 0⟩ b := by
  obtain ⟨s, hs, hi⟩ := state_of_item h.item
  have hhead : n ∈ heads (itemsAt k) := mem_filterMap.2 ⟨i, h.item, by simp [hx]⟩
  have hitem := (states_checked.1 k (lt_size_of_item h.item)).2.1 n hhead r hr
  have hflow : ⟨slot k i, slot k ⟨r, 0⟩, firstOf firstSets rest, rest.all nullable⟩ ∈ flows := by
    refine flow_mem hs hi ?_
    rw [flowsOfItem, hx]
    exact mem_append_right _ (mem_map.2 ⟨r, hr, rfl⟩)
  refine ⟨hitem, testBit_of_flow hflow ?_⟩
  rcases hb with ⟨t, rfl, hb⟩ | ⟨hall, rfl⟩
  · exact .inl hb
  · exact .inr ⟨hall, h.lookahead⟩

lemma table_get (k : Nat) : table[k]? = (states[k]?).map (rowOf k) := by
  simp only [table, getElem?_toArray, getElem?_map, getElem?_zipIdx, Nat.zero_add,
    Option.map_map, Array.getElem?_toList]
  rfl

lemma action?_eq (k : Nat) (a : Option Terminal) :
    action? k a = ((actionsAt k).find? (·.1 = a)).map (·.2) := by
  cases hs : states[k]? with
  | none | some s => simp [action?, table_get, actionsAt, hs]

lemma mem_actionsAt :
    (a, act) ∈ actionsAt k ↔
      (∃ t j, (.terminal t, j) ∈ movesAt k ∧ a = some t ∧ act = .shift j) ∨
      ∃ i, Holds k i a ∧ i.rest = [] ∧ act = if i.rule = 0 then .accept else .reduce i.rule := by
  cases hs : states[k]? with
  | none =>
    have hitems : itemsAt k = [] := by simp [itemsAt, hs]
    have hmoves : movesAt k = [] := by simp [movesAt, hs]
    have hactions : actionsAt k = [] := by simp [actionsAt, hs]
    rw [hactions, hmoves]
    constructor
    · intro h
      cases h
    · rintro (⟨t, j, h, -⟩ | ⟨i, h, -⟩)
      · cases h
      · have hi := h.item
        rw [hitems] at hi
        cases hi
  | some s =>
    have hitems : itemsAt k = s.items := by simp [itemsAt, hs]
    have hmoves : movesAt k = s.moves := by simp [movesAt, hs]
    have hactions : actionsAt k = (rowOf k s).actions := by simp [actionsAt, hs]
    rw [hactions, rowOf, mem_append, mem_filterMap, mem_flatMap, hmoves]
    constructor
    · rintro (⟨⟨x, j⟩, hm, hx⟩ | ⟨i, hi, hact⟩)
      · cases x with
        | terminal t =>
          simp only [Option.some.injEq, Prod.mk.injEq] at hx
          exact .inl ⟨t, j, hm, hx.1.symm, hx.2.symm⟩
        | nonterminal n => cases hx
      · split at hact
        · next hrest =>
          obtain ⟨b, hb, he⟩ := mem_map.1 hact
          simp only [Prod.mk.injEq] at he
          obtain ⟨rfl, rfl⟩ := he
          exact .inr ⟨i, ⟨hitems ▸ hi, mem_members.1 hb⟩, isEmpty_iff.1 hrest, rfl⟩
        · cases hact
    · rintro (⟨t, j, hm, rfl, rfl⟩ | ⟨i, hi, hrest, rfl⟩)
      · exact .inl ⟨(.terminal t, j), hm, rfl⟩
      · refine .inr ⟨i, hitems ▸ hi.item, ?_⟩
        rw [if_pos (isEmpty_iff.2 hrest)]
        exact mem_map.2 ⟨a, mem_members.2 hi.lookahead, rfl⟩

lemma action?_of_mem (h : (a, act) ∈ actionsAt k) : action? k a = some act := by
  have hk : k < states.size := by
    by_contra hk
    have hnone : states[k]? = none := Array.getElem?_eq_none (by omega)
    simp [actionsAt, hnone] at h
  rw [action?_eq, find?_of_nodup_map (states_checked.1 k hk).2.2.2.2.1.1 h, Option.map_some]

lemma action?_eq_some_iff : action? k a = some act ↔ (a, act) ∈ actionsAt k := by
  refine ⟨fun h => ?_, action?_of_mem⟩
  rw [action?_eq, Option.map_eq_some_iff] at h
  obtain ⟨⟨b, act'⟩, hfind, rfl⟩ := h
  have hb : b = a := by simpa using find?_some hfind
  exact hb ▸ mem_of_find?_eq_some hfind

lemma action?_shift_iff :
    action? k a = some (.shift j) ↔ ∃ t, a = some t ∧ (.terminal t, j) ∈ movesAt k := by
  rw [action?_eq_some_iff, mem_actionsAt]
  constructor
  · rintro (⟨t, j', hm, rfl, he⟩ | ⟨i, -, -, he⟩)
    · cases he
      exact ⟨t, rfl, hm⟩
    · split at he <;> cases he
  · rintro ⟨t, rfl, hm⟩
    exact .inl ⟨t, j, hm, rfl, rfl⟩

lemma action?_reduce_iff :
    action? k a = some (.reduce r) ↔ r ≠ 0 ∧ ∃ i, Holds k i a ∧ i.rest = [] ∧ i.rule = r := by
  rw [action?_eq_some_iff, mem_actionsAt]
  constructor
  · rintro (⟨t, j, -, -, he⟩ | ⟨i, hi, hrest, he⟩)
    · cases he
    · split at he
      · cases he
      · next hne =>
        cases he
        exact ⟨hne, i, hi, hrest, rfl⟩
  · rintro ⟨hne, i, hi, hrest, rfl⟩
    exact .inr ⟨i, hi, hrest, (if_neg hne).symm⟩

lemma action?_accept_iff :
    action? k a = some .accept ↔ ∃ i, Holds k i a ∧ i.rest = [] ∧ i.rule = 0 := by
  rw [action?_eq_some_iff, mem_actionsAt]
  constructor
  · rintro (⟨t, j, -, -, he⟩ | ⟨i, hi, hrest, he⟩)
    · cases he
    · split at he
      · next h0 => exact ⟨i, hi, hrest, h0⟩
      · cases he
  · rintro ⟨i, hi, hrest, h0⟩
    exact .inr ⟨i, hi, hrest, (if_pos h0).symm⟩

lemma Holds.eq_none (h : Holds k i a) (hrest : i.rest = []) (hrule : i.rule = 0) : a = none := by
  have hmembers := (states_checked.1 k (lt_size_of_item h.item)).2.2.2.2.2.1 i h.item hrest hrule
  have ha := mem_members.2 h.lookahead
  rw [hmembers] at ha
  exact mem_singleton.1 ha

lemma mem_gotos {moves : List (Symbol × Nat)} :
    (n, j) ∈ (moves.filterMap fun m =>
      match m.1 with
      | .terminal _ => none
      | .nonterminal n => some (n, m.2)) ↔ (.nonterminal n, j) ∈ moves := by
  rw [mem_filterMap]
  constructor
  · rintro ⟨⟨x, target⟩, hm, hx⟩
    cases x with
    | terminal t => cases hx
    | nonterminal m =>
      simp only [Option.some.injEq, Prod.mk.injEq] at hx
      obtain ⟨rfl, rfl⟩ := hx
      exact hm
  · intro hm
    exact ⟨(.nonterminal n, j), hm, rfl⟩

lemma move_unique {j' : Nat} (h : (x, j) ∈ movesAt k) (h' : (x, j') ∈ movesAt k) : j = j' := by
  have hfind := find?_move h
  rw [find?_move h'] at hfind
  simpa using hfind.symm

lemma goto?_iff : goto? k n = some j ↔ (.nonterminal n, j) ∈ movesAt k := by
  cases hs : states[k]? with
  | none => simp [goto?, table_get, movesAt, hs]
  | some s =>
    have hmoves : movesAt k = s.moves := by simp [movesAt, hs]
    have hgoto : goto? k n = ((rowOf k s).gotos.find? (·.1 = n)).map (·.2) := by
      simp [goto?, table_get, hs]
    have hsound : ∀ j', goto? k n = some j' → (.nonterminal n, j') ∈ movesAt k := by
      intro j' h
      rw [hgoto, Option.map_eq_some_iff] at h
      obtain ⟨⟨n', j''⟩, hfind, rfl⟩ := h
      have hn : n' = n := by simpa using find?_some hfind
      rw [← hn, hmoves]
      exact mem_gotos.1 (mem_of_find?_eq_some hfind)
    refine ⟨hsound j, fun hm => ?_⟩
    have hmem : (n, j) ∈ (rowOf k s).gotos := mem_gotos.2 (hmoves ▸ hm)
    cases hg : goto? k n with
    | none =>
      rw [hgoto, Option.map_eq_none_iff, find?_eq_none] at hg
      exact absurd (decide_eq_true rfl) (hg _ hmem)
    | some j' => rw [move_unique (hsound j' hg) hm]

def certificate : Certificate lalr where
  items := itemsAt
  moves k x j := (x, j) ∈ movesAt k
  holds := Holds
  item_of_holds := Holds.item
  shift_iff := action?_shift_iff
  reduce_iff := action?_reduce_iff
  accept_iff := action?_accept_iff
  goto_iff := goto?_iff
  initial := holds_start
  dot_initial hi := states_checked.2.2.1 _ hi
  ne_initial hm := ((states_checked.1 _ (lt_size_of_move hm)).2.2.1 _ hm).1
  ends := Holds.eq_none
  nullable_move hm := (states_checked.1 _ (lt_size_of_move hm)).2.2.2.2.2.2 _ hm
  advance := Holds.advance
  move_of_item := fun {k i x} hi hx => by
    obtain ⟨⟨y, j⟩, hm, rfl, -⟩ := (states_checked.1 k (lt_size_of_item hi)).1 i hi x hx
    exact ⟨j, hm⟩
  expect := Holds.expect
  item_of_move hm :=
    List.exists_mem_of_ne_nil _ ((states_checked.1 _ (lt_size_of_move hm)).2.2.1 _ hm).2.1
  backed hm hi hdot := ((states_checked.1 _ (lt_size_of_move hm)).2.2.1 _ hm).2.2 _ hi hdot
  opened hi hdot := (states_checked.1 _ (lt_size_of_item hi)).2.2.2.1 _ hi hdot

end Xdr.Automaton
