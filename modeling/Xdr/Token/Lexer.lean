import Xdr.Token

/-!
# Cutting a text into tokens

At each place the longest lexeme is cut off. Blanks, comments and pass-through lines are skipped.
Reserved words are recognised only as whole words.
-/

namespace Xdr.Lexer

def isSpace (c : Char) : Bool := c = ' ' || c = '\t' || c = '\x0c' || c = '\r' || c = '\n'

def isDigit (c : Char) : Bool := '0' ≤ c && c ≤ '9'

def isHexDigit (c : Char) : Bool :=
  isDigit c || ('a' ≤ c && c ≤ 'f') || ('A' ≤ c && c ≤ 'F')

def isNameStart (c : Char) : Bool :=
  ('A' ≤ c && c ≤ 'Z') || ('a' ≤ c && c ≤ 'z') || c = '_'

def isNameChar (c : Char) : Bool := isNameStart c || isDigit c

inductive Lexeme
  | token (kind : Terminal)
  | trivia (kind : Trivia)
deriving DecidableEq

def wordKind (word : List Char) : Terminal :=
  (Terminal.keywords.find? fun t => t.spelling? = some (String.ofList word)).getD .name

def markKind? (c : Char) : Option Terminal :=
  (Terminal.all.drop 18).find? fun t => t.spelling? = some (String.singleton c)

def commentBody? : List Char → Option (List Char)
  | [] => none
  | '*' :: '/' :: _ => some ['*', '/']
  | c :: rest => (commentBody? rest).map (c :: ·)

def digitsOf (cs : List Char) : List Char :=
  match cs with
  | '0' :: x :: h :: rest =>
    if (x = 'x' || x = 'X') && isHexDigit h then '0' :: x :: h :: rest.takeWhile isHexDigit
    else cs.takeWhile isDigit
  | _ => cs.takeWhile isDigit

def scan? : List Char → Option (Lexeme × List Char)
  | [] => none
  | c :: rest =>
    if isSpace c then some (.trivia .blanks, c :: rest.takeWhile isSpace)
    else if isNameStart c then
      let word := c :: rest.takeWhile isNameChar
      some (.token (wordKind word), word)
    else if isDigit c then some (.token .number, digitsOf (c :: rest))
    else if c = '-' then
      match digitsOf rest with
      | [] => none
      | d :: ds => some (.token .number, c :: d :: ds)
    else if c = '%' then some (.trivia .passThrough, c :: rest.takeWhile (· ≠ '\n'))
    else if c = '/' then
      match rest with
      | '/' :: more => some (.trivia .lineComment, c :: '/' :: more.takeWhile (· ≠ '\n'))
      | '*' :: more =>
        (commentBody? more).map fun body => (.trivia .blockComment, c :: '*' :: body)
      | _ => none
    else (markKind? c).map fun t => (.token t, [c])

structure Lexed where
  tokens : List Token
  /-- The character that starts no lexeme, if the lexer stopped at one. -/
  stopped : Option (Char × Position)
deriving DecidableEq

def lexFrom : Nat → Position → List Char → Lexed
  | 0, _, _ => ⟨[], none⟩
  | _, _, [] => ⟨[], none⟩
  | count + 1, p, c :: cs =>
    match scan? (c :: cs) with
    | none => ⟨[], some (c, p)⟩
    | some (kind, text) =>
      let q := p.advance text
      let tail := lexFrom count q ((c :: cs).drop text.length)
      match kind with
      | .trivia _ => tail
      | .token t => { tail with tokens := ⟨t, String.ofList text, p, q⟩ :: tail.tokens }

def lex (source : String) : Lexed :=
  let cs := source.toList
  lexFrom cs.length .first cs

end Xdr.Lexer
