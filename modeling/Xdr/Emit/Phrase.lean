/-!
# Phrases

Generated code is written word by word.
-/

namespace Xdr

inductive Word
  | plain (text : String)
  | binds (name : String)
  | own (name : String)
  | relied (name : String)
deriving DecidableEq

namespace Word

def text : Word → String
  | plain text => text
  | binds name => name
  | own name => name
  | relied name => name

def bound? : Word → Option String
  | binds name => some name
  | _ => none

def relied? : Word → Option String
  | relied name => some name
  | _ => none

end Word

abbrev Phrase := List Word

namespace Phrase

def text (p : Phrase) : String := String.join (p.map Word.text)

def boundNames (p : Phrase) : List String := p.filterMap Word.bound?

def reliedNames (p : Phrase) : List String := p.filterMap Word.relied?

def plain (text : String) : Phrase := [.plain text]

def binds (name : String) : Phrase := [.binds name]

def own (name : String) : Phrase := [.own name]

def rely (name : String) : Phrase := [.relied name]

def attr (owner : Phrase) (name : String) : Phrase := owner ++ plain ("." ++ name)

def join (mark : String) : List Phrase → Phrase
  | [] => []
  | [p] => p
  | p :: q :: rest => p ++ plain mark ++ join mark (q :: rest)

def commas (parts : List Phrase) : Phrase := join ", " parts

def call (function : Phrase) (arguments : List Phrase) : Phrase :=
  function ++ plain "(" ++ commas arguments ++ plain ")"

def lambda (parameters : List String) (body : Phrase) : Phrase :=
  plain (if parameters.isEmpty then "lambda: " else "lambda ") ++ commas (parameters.map rely) ++
    plain (if parameters.isEmpty then "" else ": ") ++ body

def method (name : String) (parameters : List Phrase) (result : Phrase) : Phrase :=
  plain ("def " ++ name ++ "(") ++ commas parameters ++ plain ") -> " ++ result ++ plain ":"

def typed (parameter : String) (hint : Phrase) : Phrase := rely parameter ++ plain ": " ++ hint

def assign (target value : Phrase) : Phrase := target ++ plain " = " ++ value

def returns (value : Phrase) : Phrase := plain "return " ++ value

def tuple : List Phrase → Phrase
  | [item] => plain "(" ++ item ++ plain ",)"
  | items => plain "(" ++ commas items ++ plain ")"

section

variable (name body : String) (p q : Phrase)

@[simp] theorem boundNames_nil : boundNames [] = [] := rfl
@[simp] theorem boundNames_append : boundNames (p ++ q) = p.boundNames ++ q.boundNames :=
  List.filterMap_append
@[simp] theorem boundNames_plain : boundNames (plain body) = [] := rfl
@[simp] theorem boundNames_binds : boundNames (binds name) = [name] := rfl
@[simp] theorem boundNames_own : boundNames (own name) = [] := rfl
@[simp] theorem boundNames_rely : boundNames (rely name) = [] := rfl

@[simp] theorem reliedNames_nil : reliedNames [] = [] := rfl
@[simp] theorem reliedNames_append : reliedNames (p ++ q) = p.reliedNames ++ q.reliedNames :=
  List.filterMap_append
@[simp] theorem reliedNames_plain : reliedNames (plain body) = [] := rfl
@[simp] theorem reliedNames_binds : reliedNames (binds name) = [] := rfl
@[simp] theorem reliedNames_own : reliedNames (own name) = [] := rfl
@[simp] theorem reliedNames_rely : reliedNames (rely name) = [name] := rfl

end

end Phrase

end Xdr
