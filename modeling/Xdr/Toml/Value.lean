import Xdr.Text.Quoted
import Xdr.Text.Span

/-!
# Values of a configuration document

Tables keep the order of their keys. Dates and times are kept as written: nothing here computes
with them.
-/

namespace Xdr.Toml

inductive Value
  | string (s : String)
  | bool (b : Bool)
  | int (n : Int)
  | float (text : String)
  | datetime (text : String)
  | date (text : String)
  | time (text : String)
  | array (items : List Value)
  | table (entries : List (String × Value))
deriving Inhabited

abbrev Table := List (String × Value)

abbrev Key := List String

inductive Cause
  | invalidStatement
  | textBehindStatement
  | declaredTwice (key : Key)
  | immutable (key : Key)
  | redefined (key : Key)
  | overwrite
  | unclosedHeader
  | unclosedListHeader
  | missingEquals
  | badKey
  | unclosedArray
  | unclosedInlineTable
  | duplicateKey (name : String)
  | strayBackslash
  | badHex
  | notAScalar
  | unterminated
  | illegalCharacter (c : Char)
  | invalidCharacter (c : Char)
  | missingQuote (quote : String)
  | invalidDate
  | invalidValue
  | hugeInteger
deriving DecidableEq

def shownKey : Key → String
  | [part] => "(" ++ Text.quote part ++ ",)"
  | parts => "(" ++ String.intercalate ", " (parts.map Text.quote) ++ ")"

def Cause.message : Cause → String
  | invalidStatement => "Invalid statement"
  | textBehindStatement => "Expected newline or end of document after a statement"
  | declaredTwice key => "Cannot declare " ++ shownKey key ++ " twice"
  | immutable key => "Cannot mutate immutable namespace " ++ shownKey key
  | redefined key => "Cannot redefine namespace " ++ shownKey key
  | overwrite => "Cannot overwrite a value"
  | unclosedHeader => "Expected ']' at the end of a table declaration"
  | unclosedListHeader => "Expected ']]' at the end of an array declaration"
  | missingEquals => "Expected '=' after a key in a key/value pair"
  | badKey => "Invalid initial character for a key part"
  | unclosedArray => "Unclosed array"
  | unclosedInlineTable => "Unclosed inline table"
  | duplicateKey name => "Duplicate inline table key " ++ Text.quote name
  | strayBackslash => "Unescaped '\\' in a string"
  | badHex => "Invalid hex value"
  | notAScalar => "Escaped character is not a Unicode scalar value"
  | unterminated => "Unterminated string"
  | illegalCharacter c => "Illegal character " ++ Text.quote (String.singleton c)
  | invalidCharacter c => "Found invalid character " ++ Text.quote (String.singleton c)
  | missingQuote quote => "Expected " ++ Text.quote quote
  | invalidDate => "Invalid date or datetime"
  | invalidValue => "Invalid value"
  | hugeInteger => "Integer too long"

/-- A cause at a place; without a place it is at the end of the document. -/
structure Fault where
  cause : Cause
  place : Option Position
deriving DecidableEq

def Fault.message (f : Fault) : String :=
  let place :=
    match f.place with
    | some p => s!"line {p.line}, column {p.col}"
    | none => "end of document"
  s!"{f.cause.message} (at {place})"

end Xdr.Toml
