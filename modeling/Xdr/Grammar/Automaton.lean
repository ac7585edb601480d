import Xdr.Grammar
import Xdr.Number.Binary

/-!
# The LALR(1) automaton

The states are the sets of items of the LR(0) automaton.
-/

namespace Xdr.Automaton

open Grammar
open scoped Power

/-! ### Items -/

structure Item where
  rule : Nat
  dot : Nat
deriving DecidableEq

namespace Item

def rest (i : Item) : List Symbol :=
  match productions[i.rule]? with
  | some p => p.rhs.drop i.dot
  | none => []

def next (i : Item) : Item := { i with dot := i.dot + 1 }

def lhs (i : Item) : Nonterminal := ((productions[i.rule]?).map (·.lhs)).getD .start

def before (a b : Item) : Bool := a.rule < b.rule || (a.rule = b.rule && a.dot ≤ b.dot)

end Item

def heads (items : List Item) : List Nonterminal :=
  items.filterMap fun i =>
    match i.rest with
    | .nonterminal n :: _ => some n
    | _ => none

/-- Adds to `seen` all nonterminals of `todo` and what their rules begin with. Each round adds one
nonterminal, so `count` rounds are enough for `count` nonterminals and repetitions. -/
def reachHeads : Nat → List Nonterminal → List Nonterminal → List Nonterminal
  | 0, _, seen => seen
  | _, [], seen => seen
  | count + 1, n :: todo, seen =>
    if n ∈ seen then reachHeads count todo seen
    else
      reachHeads count (todo ++ heads ((rulesOf n).map fun r => ⟨r, 0⟩)) (seen ++ [n])

def closure (kernel : List Item) : List Item :=
  kernel ++ (reachHeads 200 (heads kernel) []).flatMap fun n => (rulesOf n).map fun r => ⟨r, 0⟩

def nextSymbols (items : List Item) : List Symbol :=
  (items.filterMap fun i => i.rest.head?).eraseDups

def insertItem (i : Item) : List Item → List Item
  | [] => [i]
  | j :: rest => if i.before j then i :: j :: rest else j :: insertItem i rest

def successor (items : List Item) (s : Symbol) : List Item :=
  ((items.filter fun i => i.rest.head? = some s).map Item.next).foldr insertItem []

/-! ### States -/

/-- A state: its kernel, all its items, and where each symbol leads. -/
structure State where
  kernel : List Item
  items : List Item
  moves : List (Symbol × Nat)

def internKernel (kernels : Array (List Item)) (k : List Item) : Array (List Item) × Nat :=
  match kernels.toList.findIdx? (· = k) with
  | some i => (kernels, i)
  | none => (kernels.push k, kernels.size)

def movesOf (items : List Item) :
    List Symbol → Array (List Item) → Array (List Item) × List (Symbol × Nat)
  | [], kernels => (kernels, [])
  | s :: rest, kernels =>
    let (kernels, target) := internKernel kernels (successor items s)
    let (kernels, moves) := movesOf items rest kernels
    (kernels, (s, target) :: moves)

def explore : Nat → Array (List Item) → Array State → Array State
  | 0, _, states => states
  | count + 1, kernels, states =>
    match kernels[states.size]? with
    | none => states
    | some kernel =>
      let items := closure kernel
      let (kernels, moves) := movesOf items (nextSymbols items) kernels
      explore count kernels (states.push ⟨kernel, items, moves⟩)

@[irreducible] def states : Array State := explore 1000 #[[⟨0, 0⟩]] #[]

/-! ### Tables of sets -/

def endBit : Nat := Terminal.all.length

def setWidth : Nat := endBit + 1

def entry (table i : Nat) : Nat := (table >>> (i * setWidth)) % 2 ^ setWidth

def enlarge (table i set : Nat) : Nat := table ||| set <<< (i * setWidth)

def settle (round : Nat → Nat) : Nat → Nat → Nat
  | 0, table => table
  | count + 1, table =>
    let next := round table
    if next = table then table else settle round count next

/-! ### First sets -/

def bitOf (t : Terminal) : Nat := 1 <<< t.ctorIdx

def firstOfSymbol (firsts : Nat) : Symbol → Nat
  | .terminal t => bitOf t
  | .nonterminal n => entry firsts n.ctorIdx

def nullable : Symbol → Bool
  | .nonterminal .specification => true
  | .nonterminal .start => true
  | _ => false

def firstOf (firsts : Nat) : List Symbol → Nat
  | [] => 0
  | s :: rest =>
    firstOfSymbol firsts s ||| (if nullable s then firstOf firsts rest else 0)

def firstRound (firsts : Nat) : Nat :=
  productions.foldl (fun firsts p => enlarge firsts p.lhs.ctorIdx (firstOf firsts p.rhs)) firsts

@[irreducible] def firstSets : Nat := settle firstRound 50 0

/-! ### Lookaheads -/

def offsets : Array Nat :=
  (states.foldl (fun (acc : Array Nat × Nat) s => (acc.1.push acc.2, acc.2 + s.items.length))
    (#[], 0)).1

def slot (state : Nat) (i : Item) : Nat :=
  (offsets[state]?.getD 0) +
    (((states[state]?).map fun s => s.items.idxOf i).getD 0)

/-- A flow of lookaheads from one place of the table to another, with the terminals added on the
way; some flows only add. -/
structure Flow where
  source : Nat
  target : Nat
  added : Nat
  carries : Bool

def flowsOfItem (state : Nat) (moves : List (Symbol × Nat)) (i : Item) : List Flow :=
  match i.rest with
  | [] => []
  | s :: rest =>
    let here := slot state i
    let onward :=
      match moves.find? (·.1 = s) with
      | some (_, target) => [⟨here, slot target i.next, 0, true⟩]
      | none => []
    let expected :=
      match s with
      | .terminal _ => []
      | .nonterminal n =>
        let added := firstOf firstSets rest
        (rulesOf n).map fun r => ⟨here, slot state ⟨r, 0⟩, added, rest.all nullable⟩
    onward ++ expected

def flows : List Flow :=
  (states.toList.zipIdx).flatMap fun (s, k) => s.items.flatMap (flowsOfItem k s.moves)

def lookaheadRound (table : Nat) : Nat :=
  flows.foldl (fun table f =>
    enlarge table f.target (f.added ||| if f.carries then entry table f.source else 0)) table

@[irreducible] def lookaheads : Nat := settle lookaheadRound 500 (enlarge 0 0 (1 <<< endBit))

/-! ### The parse table -/

inductive Action
  | shift (state : Nat)
  | reduce (rule : Nat)
  | accept
deriving DecidableEq

/-- The actions and moves of one state. The end of input is the lookahead `none`. -/
structure Row where
  actions : List (Option Terminal × Action)
  gotos : List (Nonterminal × Nat)

def members (set : Nat) : List (Option Terminal) :=
  (Terminal.all.filter fun t => set.testBit t.ctorIdx).map some ++
    (if set.testBit endBit then [none] else [])

def rowOf (k : Nat) (s : State) : Row :=
  let shifts := s.moves.filterMap fun (x, target) =>
    match x with
    | .terminal t => some (some t, Action.shift target)
    | .nonterminal _ => none
  let reductions := s.items.flatMap fun i =>
    if i.rest.isEmpty then
      (members (entry lookaheads (slot k i))).map fun a =>
        (a, if i.rule = 0 then Action.accept else .reduce i.rule)
    else []
  let gotos := s.moves.filterMap fun (x, target) =>
    match x with
    | .terminal _ => none
    | .nonterminal n => some (n, target)
  ⟨shifts ++ reductions, gotos⟩

def table : Array Row := ((states.toList.zipIdx).map fun (s, k) => rowOf k s).toArray

def action? (state : Nat) (lookahead : Option Terminal) : Option Action := do
  let row ← table[state]?
  (row.actions.find? (·.1 = lookahead)).map (·.2)

def goto? (state : Nat) (n : Nonterminal) : Option Nat := do
  let row ← table[state]?
  (row.gotos.find? (·.1 = n)).map (·.2)

structure ParseTable where
  action? : Nat → Option Terminal → Option Action
  goto? : Nat → Nonterminal → Option Nat

def lalr : ParseTable := ⟨action?, goto?⟩

def expected (state : Nat) : List Terminal :=
  match table[state]? with
  | some row => row.actions.filterMap (·.1)
  | none => []

end Xdr.Automaton
