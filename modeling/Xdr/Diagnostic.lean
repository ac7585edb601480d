import Xdr.Ast.Builder
import Xdr.Diagnostic.Catalogue

/-!
# Diagnostics

A problem says what is wrong, with the names and numbers that its message quotes. A finding is a
problem with its place; a diagnostic is what the reader is shown of it.
-/

namespace Xdr

inductive Problem
  | internalError (message : String)
  | unexpectedToken (token expected : String)
  | unexpectedCharacter (c : Char)
  | unexpectedEnd (expected : String)
  | invalidOctal (literal : String)
  | undefinedSymbol (name : String)
  | notAValue (name : String) (kind : Kind)
  | notAType (name : String) (kind : Kind)
  | duplicateName (name previous : String)
  | duplicateField (field owner : String)
  | duplicateEnumValue (enum : String) (value : Int) (previous name : String)
  | infiniteType (cycle : List String)
  | cyclicConstant (name : String) (cycle : List String)
  | badDiscriminant (union found : String)
  | labelOutOfDomain (label ty : String)
  | duplicateLabel (label union : String)
  | armNamedLikeDiscriminant (field union : String)
  | unhandledVariants (union : String) (missing : List String)
  | nestedArray (elem : String)
  | inlineBody (kind : String)
  | quadruple
  | misplacedVoid
  | constantRange (name : String) (value : Int)
  | enumRange (name : String) (value : Int)
  | lengthRange (name : String) (value : Int)
deriving DecidableEq

namespace Problem

def code : Problem → Code
  | internalError _ => .internalError
  | unexpectedToken _ _ => .unexpectedToken
  | unexpectedCharacter _ => .unexpectedCharacter
  | unexpectedEnd _ => .unexpectedEnd
  | invalidOctal _ => .invalidOctal
  | undefinedSymbol _ => .undefinedSymbol
  | notAValue _ _ => .notAValue
  | notAType _ _ => .notAType
  | duplicateName _ _ => .duplicateName
  | duplicateField _ _ => .duplicateField
  | duplicateEnumValue _ _ _ _ => .duplicateEnumValue
  | infiniteType _ => .infiniteType
  | cyclicConstant _ _ => .cyclicConstant
  | badDiscriminant _ _ => .badDiscriminant
  | labelOutOfDomain _ _ => .labelOutOfDomain
  | duplicateLabel _ _ => .duplicateLabel
  | armNamedLikeDiscriminant _ _ => .armNamedLikeDiscriminant
  | unhandledVariants _ _ => .unhandledVariants
  | nestedArray _ => .nestedArray
  | inlineBody _ => .inlineBody
  | quadruple => .quadruple
  | misplacedVoid => .misplacedVoid
  | constantRange _ _ => .constantRange
  | enumRange _ _ => .enumRange
  | lengthRange _ _ => .lengthRange

def chain (names : List String) : String := String.intercalate " -> " names

def args : Problem → List (String × String)
  | internalError message => [("message", message)]
  | unexpectedToken token expected => [("token", token), ("expected", expected)]
  | unexpectedCharacter c => [("char", String.singleton c)]
  | unexpectedEnd expected => [("expected", expected)]
  | invalidOctal literal => [("literal", literal)]
  | undefinedSymbol name => [("name", name)]
  | notAValue name kind => [("name", name), ("kind", kind.spelling)]
  | notAType name kind => [("name", name), ("kind", kind.spelling)]
  | duplicateName name previous => [("name", name), ("prev", previous)]
  | duplicateField field owner => [("field", field), ("owner", owner)]
  | duplicateEnumValue enum value previous name =>
    [("enum", enum), ("value", toString value), ("prev", previous), ("name", name)]
  | infiniteType cycle =>
    [("name", cycle.headD ""), ("cycle", chain (cycle ++ cycle.take 1))]
  | cyclicConstant name cycle => [("name", name), ("cycle", chain cycle)]
  | badDiscriminant union found => [("union", union), ("found", found)]
  | labelOutOfDomain label ty => [("label", label), ("ty", ty)]
  | duplicateLabel label union => [("label", label), ("union", union)]
  | armNamedLikeDiscriminant field union => [("field", field), ("union", union)]
  | unhandledVariants union missing =>
    [("union", union), ("missing", String.intercalate ", " missing)]
  | nestedArray elem => [("elem", elem)]
  | inlineBody kind => [("kind", kind)]
  | quadruple => []
  | misplacedVoid => []
  | constantRange name value => [("name", name), ("value", toString value)]
  | enumRange name value => [("name", name), ("value", toString value)]
  | lengthRange name value => [("name", name), ("value", toString value)]

def message (p : Problem) : String :=
  match p.code.text p.args with
  | .ok text => text
  | .error fault => fault.message

def isWritable : Problem → Bool
  | constantRange _ value => Number.isWritable value
  | enumRange _ value => Number.isWritable value
  | lengthRange _ value => Number.isWritable value
  | _ => true

def severity (p : Problem) : Severity := p.code.entry.severity

end Problem

structure Finding where
  problem : Problem
  span : Option Span
deriving DecidableEq

def Finding.isError (f : Finding) : Bool := f.problem.severity = .error

structure Diagnostic where
  severity : Severity
  code : String
  message : String
  span : Option Span
deriving DecidableEq

def Diagnostic.isError (d : Diagnostic) : Bool := d.severity = .error

def Finding.diagnostic (f : Finding) : Diagnostic :=
  ⟨f.problem.severity, f.problem.code.label, f.problem.message, f.span⟩

def ParseFault.finding : ParseFault → Finding
  | .unexpectedToken token expected =>
    ⟨.unexpectedToken ("'" ++ token.text ++ "'") (expectation (expected.map (·.shown))),
     some (.at token.start (max 1 token.text.length))⟩
  | .unexpectedCharacter c place => ⟨.unexpectedCharacter c, some (.at place 1)⟩
  | .unexpectedEnd last expected =>
    ⟨.unexpectedEnd (expectation (expected.map (·.shown))),
     some (.at ((last.map (·.start)).getD .first) 1)⟩

/-- The finding for a tree without definitions. Two causes are not findings: a number that cannot
be read at all, and a root that is no specification. -/
def Ast.BuildFault.finding? (f : Ast.BuildFault) : Option Finding :=
  match f.cause with
  | .octal literal => some ⟨.invalidOctal literal, f.span⟩
  | .duplicate name previous =>
    some ⟨.duplicateName name ((previous.map Span.start).getD "an earlier definition"), f.span⟩
  | .misplacedVoid => some ⟨.misplacedVoid, f.span⟩
  | .defect d => some ⟨.internalError d.message, f.span⟩
  | .unreadable _ => none
  | .notASpecification => none

end Xdr
