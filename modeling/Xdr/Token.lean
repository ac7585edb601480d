import Xdr.Text.Lines
import Xdr.Text.Span

/-!
# Tokens of the interface language

The terminals are the reserved words, the punctuation marks, names and numbers. A token is an
occurrence of a terminal in a text, with its spelling and its place.
-/

namespace Xdr

inductive Terminal
  | constKw | typedefKw | enumKw | structKw | unionKw | switchKw | caseKw | defaultKw
  | opaqueKw | stringKw | voidKw | unsignedKw | intKw | hyperKw | floatKw | doubleKw
  | quadrupleKw | boolKw
  | equal | semicolon | comma | lbrace | rbrace | lpar | rpar | colon | lsqb | rsqb
  | lessthan | morethan | star
  | name | number
deriving DecidableEq

namespace Terminal

def all : List Terminal :=
  [constKw, typedefKw, enumKw, structKw, unionKw, switchKw, caseKw, defaultKw, opaqueKw,
   stringKw, voidKw, unsignedKw, intKw, hyperKw, floatKw, doubleKw, quadrupleKw, boolKw,
   equal, semicolon, comma, lbrace, rbrace, lpar, rpar, colon, lsqb, rsqb, lessthan, morethan,
   star, name, number]

theorem mem_all (t : Terminal) : t ∈ all := by cases t <;> decide

def spelling? : Terminal → Option String
  | constKw => some "const"
  | typedefKw => some "typedef"
  | enumKw => some "enum"
  | structKw => some "struct"
  | unionKw => some "union"
  | switchKw => some "switch"
  | caseKw => some "case"
  | defaultKw => some "default"
  | opaqueKw => some "opaque"
  | stringKw => some "string"
  | voidKw => some "void"
  | unsignedKw => some "unsigned"
  | intKw => some "int"
  | hyperKw => some "hyper"
  | floatKw => some "float"
  | doubleKw => some "double"
  | quadrupleKw => some "quadruple"
  | boolKw => some "bool"
  | equal => some "="
  | semicolon => some ";"
  | comma => some ","
  | lbrace => some "\x7b"
  | rbrace => some "\x7d"
  | lpar => some "("
  | rpar => some ")"
  | colon => some ":"
  | lsqb => some "["
  | rsqb => some "]"
  | lessthan => some "<"
  | morethan => some ">"
  | star => some "*"
  | name => none
  | number => none

def label : Terminal → String
  | equal => "EQUAL"
  | semicolon => "SEMICOLON"
  | comma => "COMMA"
  | lbrace => "LBRACE"
  | rbrace => "RBRACE"
  | lpar => "LPAR"
  | rpar => "RPAR"
  | colon => "COLON"
  | lsqb => "LSQB"
  | rsqb => "RSQB"
  | lessthan => "LESSTHAN"
  | morethan => "MORETHAN"
  | star => "STAR"
  | name => "NAME"
  | number => "NUMBER"
  | t => (t.spelling?.getD "").toUpper

def keywords : List Terminal := all.take 18

def shown (t : Terminal) : String :=
  match t, t.spelling? with
  | _, some text => "'" ++ text ++ "'"
  | number, none => "number"
  | _, none => "identifier"

end Terminal

inductive Trivia
  | blanks | blockComment | lineComment | passThrough
deriving DecidableEq

def Trivia.label : Trivia → String
  | blanks => "WS"
  | blockComment => "C_COMMENT"
  | lineComment => "CPP_COMMENT"
  | passThrough => "PASSTHROUGH"

structure Token where
  kind : Terminal
  text : String
  start : Position
  stop : Position
deriving DecidableEq

def Token.span (t : Token) : Span := .between t.start t.stop

def expectation (entries : List String) : String :=
  if entries.isEmpty then "end of input" else String.intercalate ", " (sortTexts entries)

def shownByLabel? (label : String) : Option String :=
  match Terminal.all.find? (·.label = label) with
  | some t => some t.shown
  | none =>
    [Trivia.blanks, .blockComment, .lineComment, .passThrough].find? (·.label = label)
      |>.map (·.label.toLower)

def expectationOfLabels (labels : List String) : String :=
  expectation (labels.filterMap shownByLabel?)

end Xdr
