import Xdr.Grammar.Automaton

/-!
# Deriving a token sequence

The parser moves along the tokens with a stack of states and finished derivations.
-/

namespace Xdr

/-- A derivation tree: tokens at the leaves, rules by number at the nodes. -/
inductive Derivation
  | leaf (token : Token)
  | node (rule : Nat) (children : List Derivation)

namespace Derivation

mutual

def word : Derivation → List Token
  | leaf t => [t]
  | node _ children => wordAll children

def wordAll : List Derivation → List Token
  | [] => []
  | d :: ds => d.word ++ wordAll ds

end

def symbol : Derivation → Symbol
  | leaf t => .terminal t.kind
  | node rule _ =>
    .nonterminal (((Grammar.productions[rule]?).map (·.lhs)).getD .start)

mutual

def valid : Derivation → Bool
  | leaf _ => true
  | node rule children =>
    decide ((Grammar.productions[rule]?).map (·.rhs) = some (children.map symbol)) &&
      validAll children

def validAll : List Derivation → Bool
  | [] => true
  | d :: ds => d.valid && validAll ds

end

end Derivation

namespace Parser

structure Frame where
  state : Nat
  tree : Derivation

structure Configuration where
  stack : List Frame
  rest : List Token

def Configuration.state (c : Configuration) : Nat :=
  match c.stack with
  | [] => 0
  | f :: _ => f.state

/-- Where parsing stopped without success: the state, and the token on which it has no action
(none at the end of the input). -/
structure Rejection where
  state : Nat
  found : Option Token

inductive Step
  | next (c : Configuration)
  | accepted (tree : Derivation)
  | rejected (r : Rejection)

variable (table : Automaton.ParseTable)

def step (c : Configuration) : Step :=
  let rejected := Step.rejected ⟨c.state, c.rest.head?⟩
  match table.action? c.state (c.rest.head?.map (·.kind)) with
  | none => rejected
  | some .accept =>
    match c.stack with
    | f :: _ => .accepted f.tree
    | [] => rejected
  | some (.shift target) =>
    match c.rest with
    | [] => rejected
    | t :: rest => .next ⟨⟨target, .leaf t⟩ :: c.stack, rest⟩
  | some (.reduce rule) =>
    match Grammar.productions[rule]? with
    | none => rejected
    | some p =>
      let width := p.rhs.length
      let children := (c.stack.take width).reverse.map (·.tree)
      let below : Configuration := { c with stack := c.stack.drop width }
      match table.goto? below.state p.lhs with
      | none => rejected
      | some target => .next ⟨⟨target, .node rule children⟩ :: below.stack, c.rest⟩

def run : Nat → Configuration → Except Rejection Derivation
  | 0, c => .error ⟨c.state, c.rest.head?⟩
  | count + 1, c =>
    match step table c with
    | .next c => run count c
    | .accepted tree => .ok tree
    | .rejected r => .error r

/-- The derivation of a token sequence. A derivation has less than two branching nodes a token, and
a chain of single children is shorter than the list of nonterminals, which bounds the steps. -/
def derive (tokens : List Token) : Except Rejection Derivation :=
  run Automaton.lalr (64 * (tokens.length + 1)) ⟨[], tokens⟩

end Parser

end Xdr
