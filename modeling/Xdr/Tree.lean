import Xdr.Grammar.Derivation
import Xdr.Token.Lexer

/-!
# Trees

The tree of a text names its nodes after the rules and keeps names and numbers as leaves.
Punctuation, reserved words and the nodes of unlabelled rules are left out.
-/

namespace Xdr

inductive Tree
  | leaf (kind text : String) (span : Option Span)
  | node (rule : String) (children : List Tree) (span : Option Span)
deriving Inhabited

namespace Tree

def span? : Tree → Option Span
  | leaf _ _ span => span
  | node _ _ span => span

def isNode : Tree → Bool
  | leaf .. => false
  | node .. => true

end Tree

abbrev Extent := Option (Position × Position)

def Extent.join : Extent → Extent → Extent
  | none, e => e
  | e, none => e
  | some (a, _), some (_, b) => some (a, b)

def Extent.span (e : Extent) : Option Span := e.map fun (a, b) => .between a b

def Terminal.isKept : Terminal → Bool
  | .name => true
  | .number => true
  | _ => false

namespace Derivation

mutual

def project : Derivation → List Tree × Extent
  | leaf t =>
    (if t.kind.isKept then [.leaf t.kind.label t.text (some t.span)] else [],
     some (t.start, t.stop))
  | node rule children =>
    let (trees, extent) := projectAll children
    match (Grammar.productions[rule]?).bind (·.label) with
    | some label => ([.node label trees extent.span], extent)
    | none => (trees, extent)

def projectAll : List Derivation → List Tree × Extent
  | [] => ([], none)
  | d :: ds =>
    let (trees, extent) := d.project
    let (more, rest) := projectAll ds
    (trees ++ more, extent.join rest)

end

end Derivation

inductive ParseFault
  | unexpectedToken (token : Token) (expected : List Terminal)
  | unexpectedEnd (last : Option Token) (expected : List Terminal)
  | unexpectedCharacter (c : Char) (place : Position)

def Tree.outcome (lexed : Lexer.Lexed) (derived : Except Parser.Rejection Derivation) :
    Except ParseFault Tree :=
  match derived, lexed.stopped with
  | .error ⟨state, some token⟩, _ => .error (.unexpectedToken token (Automaton.expected state))
  | _, some (c, place) => .error (.unexpectedCharacter c place)
  | .error ⟨state, none⟩, none =>
    .error (.unexpectedEnd lexed.tokens.getLast? (Automaton.expected state))
  | .ok derivation, none =>
    .ok (derivation.project.1.headD (.node "specification" [] none))

/-- The tree of a text, or the first fault in it. The text in front of a character that starts no
token is parsed first, so that whichever fault comes first in the text is found. -/
def Tree.parse (source : String) : Except ParseFault Tree :=
  let lexed := Lexer.lex source
  Tree.outcome lexed (Parser.derive lexed.tokens)

namespace Tree

open Text (indentation)

mutual

def showAt (level : Nat) : Tree → String
  | leaf _ text _ => indentation level ++ text ++ "\n"
  | node rule [leaf _ text _] _ => indentation level ++ rule ++ "\t" ++ text ++ "\n"
  | node rule children _ => indentation level ++ rule ++ "\n" ++ showAllAt (level + 1) children

def showAllAt (level : Nat) : List Tree → String
  | [] => ""
  | t :: ts => showAt level t ++ showAllAt level ts

end

def render (t : Tree) : String := showAt 0 t

end Tree

end Xdr
