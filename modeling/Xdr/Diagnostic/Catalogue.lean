import Xdr.Text.Quoted

/-!
# The catalogue of messages

Every message has a code, a severity, a category, a text with named holes, and a sentence for the
reader of the catalogue.
-/

namespace Xdr

inductive Severity
  | error | warning
deriving DecidableEq

def Severity.word : Severity → String
  | error => "error"
  | warning => "warning"

inductive Category
  | syntactic | undefined | duplicate | cycle | constantCycle | discriminant | unsupported | value
  | internal
deriving DecidableEq

def Category.word : Category → String
  | syntactic => "syntax"
  | undefined => "undefined"
  | duplicate => "duplicate"
  | cycle => "cycle"
  | constantCycle => "constant-cycle"
  | discriminant => "discriminant"
  | unsupported => "unsupported"
  | value => "value"
  | internal => "internal"

inductive Code
  | internalError
  | unexpectedToken | unexpectedCharacter | unexpectedEnd | invalidOctal
  | undefinedSymbol | notAValue | notAType
  | duplicateName | duplicateField | duplicateEnumValue
  | infiniteType | cyclicConstant
  | badDiscriminant | labelOutOfDomain | duplicateLabel | armNamedLikeDiscriminant
  | unhandledVariants
  | nestedArray | inlineBody | quadruple | misplacedVoid
  | constantRange | enumRange | lengthRange
deriving DecidableEq

structure Entry where
  label : String
  severity : Severity
  text : String
  category : Category
  doc : String
deriving DecidableEq

namespace Code

def all : List Code :=
  [internalError, unexpectedToken, unexpectedCharacter, unexpectedEnd, invalidOctal,
   undefinedSymbol, notAValue, notAType, duplicateName, duplicateField, duplicateEnumValue,
   infiniteType, cyclicConstant, badDiscriminant, labelOutOfDomain, duplicateLabel,
   armNamedLikeDiscriminant, unhandledVariants, nestedArray, inlineBody, quadruple, misplacedVoid,
   constantRange, enumRange, lengthRange]

theorem mem_all (c : Code) : c ∈ all := by cases c <;> decide

def entry : Code → Entry
  | internalError =>
    ⟨"CE0001", .error, "internal compiler error: {message}", .internal,
     "An invariant of the compiler itself was violated (bug)."⟩
  | unexpectedToken =>
    ⟨"CE0101", .error, "unexpected {token}; expected {expected}", .syntactic,
     "The parser found a token that cannot continue the current definition."⟩
  | unexpectedCharacter =>
    ⟨"CE0102", .error, "unexpected character '{char}'", .syntactic,
     "The character does not start any XDR token."⟩
  | unexpectedEnd =>
    ⟨"CE0103", .error, "unexpected end of input; expected {expected}", .syntactic,
     "The specification ends in the middle of a definition."⟩
  | invalidOctal =>
    ⟨"CE0104", .error, "invalid octal literal '{literal}'", .syntactic,
     "Numbers with a leading zero are octal and may only use digits 0-7."⟩
  | undefinedSymbol =>
    ⟨"CE0201", .error, "undefined symbol '{name}'", .undefined,
     "The name is neither a constant, an enum value nor a type."⟩
  | notAValue =>
    ⟨"CE0202", .error, "'{name}' is a {kind}, expected a constant or enum value", .undefined,
     "Lengths, enum values and case labels must be integer constants."⟩
  | notAType =>
    ⟨"CE0203", .error, "'{name}' is a {kind}, expected a type", .undefined,
     "Declarations must name a struct, union, enum or typedef."⟩
  | duplicateName =>
    ⟨"CE0301", .error, "'{name}' is already defined at {prev}", .duplicate,
     "Constants, enum values and types share a single namespace."⟩
  | duplicateField =>
    ⟨"CE0302", .error, "duplicate field '{field}' in '{owner}'", .duplicate,
     "Field names must be unique within a struct."⟩
  | duplicateEnumValue =>
    ⟨"CE0303", .error, "enum '{enum}' assigns value {value} to both '{prev}' and '{name}'",
     .duplicate, "Enum values must be unique within their enum."⟩
  | infiniteType =>
    ⟨"CE0401", .error, "type '{name}' has infinite size: {cycle}", .cycle,
     "A type may only refer to itself through an optional (*) declaration."⟩
  | cyclicConstant =>
    ⟨"CE0402", .error, "constant '{name}' depends on itself: {cycle}", .constantCycle,
     "Constant definitions must not form a reference cycle."⟩
  | badDiscriminant =>
    ⟨"CE0501", .error,
     "discriminant of union '{union}' must be int, unsigned int, hyper, unsigned hyper, bool or an enum, found '{found}'",
     .discriminant, "RFC 4506 section 4.15."⟩
  | labelOutOfDomain =>
    ⟨"CE0502", .error, "case label {label} is not a valid value of '{ty}'", .discriminant,
     "Case labels must belong to the discriminant's domain."⟩
  | duplicateLabel =>
    ⟨"CE0503", .error, "duplicate case label {label} in union '{union}'", .discriminant,
     "Each discriminant value may select at most one arm."⟩
  | armNamedLikeDiscriminant =>
    ⟨"CE0504", .error, "arm '{field}' of union '{union}' has the same name as its discriminant",
     .discriminant, "The discriminant and the arm become fields of the same variant."⟩
  | unhandledVariants =>
    ⟨"CW0501", .warning,
     "union '{union}' has no default arm and does not handle {missing}; decoding those values fails",
     .discriminant, "Unhandled enum values are rejected at decode time."⟩
  | nestedArray =>
    ⟨"CE0601", .error, "arrays of arrays are not supported: '{elem}' is already an array",
     .unsupported, "Nested arrays have no agreed wire representation in this compiler."⟩
  | inlineBody =>
    ⟨"CE0602", .error,
     "inline {kind} definitions are not supported; define the {kind} at top level", .unsupported,
     "Anonymous enum, struct and union bodies cannot be named in the output."⟩
  | quadruple =>
    ⟨"CE0603", .error, "quadruple precision floating point is not supported", .unsupported,
     "Python has no native 128-bit float."⟩
  | misplacedVoid =>
    ⟨"CE0604", .error, "void is only allowed as a union arm", .unsupported,
     "Struct fields, typedefs and discriminants must carry data."⟩
  | constantRange =>
    ⟨"CE0701", .error, "value {value} of '{name}' does not fit in a signed 64-bit integer", .value,
     "Constants are signed 64-bit integers."⟩
  | enumRange =>
    ⟨"CE0702", .error,
     "value {value} of enum value '{name}' does not fit in a signed 32-bit integer", .value,
     "Enums are encoded as 32-bit signed integers."⟩
  | lengthRange =>
    ⟨"CE0703", .error, "length {value} of '{name}' must be between 0 and 4294967295", .value,
     "Array lengths and bounds are encoded as 32-bit unsigned integers."⟩

def label (c : Code) : String := c.entry.label

def ofLabel? (label : String) : Option Code := all.find? (·.label = label)

end Code

inductive Piece
  | plain (cs : List Char)
  | hole (name : String)
deriving DecidableEq

def piecesFrom (inHole : Bool) (cs : List Char) : List Char → List Piece
  | [] => if cs.isEmpty then [] else [.plain cs.reverse]
  | c :: rest =>
    if c = '\x7b' then .plain cs.reverse :: piecesFrom true [] rest
    else if inHole && c = '\x7d' then
      .hole (String.ofList cs.reverse) :: piecesFrom false [] rest
    else piecesFrom inHole (c :: cs) rest

def fillText (text : String) (args : List (String × String)) : Except String String := do
  let parts ← (piecesFrom false [] text.toList).mapM fun
    | .plain cs => pure (String.ofList cs)
    | .hole name =>
      match args.lookup name with
      | some value => pure value
      | none => throw name
  return String.join parts

inductive CatalogueFault
  | unknownCode (label : String)
  | missingArgument (name : String) (code : Code)
deriving DecidableEq

def CatalogueFault.message : CatalogueFault → String
  | unknownCode label => s!"unknown error code: {label}"
  | missingArgument name code =>
    "missing text key '" ++ name ++ "' for " ++ code.label ++ " (needed by: " ++
      Text.quote code.entry.text ++ ")"

def Code.text (c : Code) (args : List (String × String)) : Except CatalogueFault String :=
  match fillText c.entry.text args with
  | .ok text => .ok text
  | .error name => .error (.missingArgument name c)

end Xdr
