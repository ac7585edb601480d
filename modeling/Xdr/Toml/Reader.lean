import Xdr.Number.Literal
import Xdr.Toml.Tables

/-!
# Reading a configuration document

A document is read one statement a line: a pair of key and value, or the header of a table. The
first fault ends the reading; it carries the place where it was noticed.
-/

namespace Xdr.Toml

structure Cursor where
  rest : List Char
  place : Position

namespace Cursor

def advance (c : Cursor) (n : Nat) : Cursor := ⟨c.rest.drop n, c.place.advance (c.rest.take n)⟩

def skip (c : Cursor) (p : Char → Bool) : Cursor := c.advance (c.rest.takeWhile p).length

def startsWith (c : Cursor) (cs : List Char) : Bool := cs.isPrefixOf c.rest

def fault (c : Cursor) (cause : Cause) : Fault :=
  ⟨cause, if c.rest.isEmpty then none else some c.place⟩

end Cursor

abbrev Reading (α : Type) := StateT Cursor (Except Fault) α

def fail {α : Type} (cause : Cause) : Reading α := fun c => .error (c.fault cause)

def peek : Reading (Option Char) := fun c => .ok (c.rest.head?, c)

def advance (n : Nat) : Reading Unit := fun c => .ok ((), c.advance n)

def skip (p : Char → Bool) : Reading Unit := fun c => .ok ((), c.skip p)

/-! ### Characters -/

def isSpace (c : Char) : Bool := c = ' ' || c = '\t'

def isSpaceOrBreak (c : Char) : Bool := isSpace c || c = '\n'

def isControl (c : Char) : Bool := (c.toNat < 32 && c != '\t') || c.toNat = 127

def isControlNotBreak (c : Char) : Bool := isControl c && c != '\n'

def isDigit (c : Char) : Bool := '0' ≤ c && c ≤ '9'

def isHexDigit (c : Char) : Bool := (Number.hexValue? c).isSome

def isKeyChar (c : Char) : Bool :=
  isDigit c || ('a' ≤ c && c ≤ 'z') || ('A' ≤ c && c ≤ 'Z') || c = '-' || c = '_'

def isKeyStart (c : Char) : Bool := isKeyChar c || c = '"' || c = '\''

/-! ### Comments -/

def before? (cs : List Char) : List Char → Option Nat
  | [] => if cs.isEmpty then some 0 else none
  | c :: rest => if cs.isPrefixOf (c :: rest) then some 0 else (before? cs rest).map (· + 1)

def skipClean (bad : Char → Bool) (n : Nat) : Reading (List Char) := fun c =>
  let span := c.rest.take n
  match span.find? bad with
  | some found =>
    .error ((c.advance (span.takeWhile fun x => !bad x).length).fault (.invalidCharacter found))
  | none => .ok (span, c.advance n)

def skipComment : Reading Unit := do
  if (← peek) = some '#' then
    advance 1
    let c ← get
    let _ ← skipClean isControl (c.rest.takeWhile (· != '\n')).length

def skipFiller : Nat → Reading Unit
  | 0 => pure ()
  | n + 1 => do
    let start ← get
    skip isSpaceOrBreak
    skipComment
    let stop ← get
    if stop.rest.length < start.rest.length then skipFiller n

/-! ### Strings -/

def hexChar (width : Nat) : Reading Char := do
  let digits := (← get).rest.take width
  if digits.length != width || !digits.all isHexDigit then fail .badHex
  advance width
  let n := (Number.readDigits? 16 0 digits).getD 0
  if n < 0xD800 || (0xE000 ≤ n && n < 0x110000) then return Char.ofNat n else fail .notAScalar

def escape (multiline : Bool) : Reading (List Char) := do
  let c := ((← get).rest.drop 1).head?
  advance 2
  match c with
  | some 'b' => return ['\x08']
  | some 't' => return ['\t']
  | some 'n' => return ['\n']
  | some 'f' => return ['\x0c']
  | some 'r' => return ['\r']
  | some '"' => return ['"']
  | some '\\' => return ['\\']
  | some 'u' => return [← hexChar 4]
  | some 'U' => return [← hexChar 8]
  | some x =>
    if multiline && isSpaceOrBreak x then
      if x != '\n' then
        skip isSpace
        match ← peek with
        | none => return []
        | some '\n' => advance 1
        | some _ => fail .strayBackslash
      skip isSpaceOrBreak
      return []
    else fail .strayBackslash
  | none => fail .strayBackslash

def basicString (multiline : Bool) : Nat → List Char → Reading (List Char)
  | 0, _ => fail .unterminated
  | n + 1, done => do
    match ← peek with
    | none => fail .unterminated
    | some '"' =>
      if !multiline then
        advance 1
        return done
      else if (← get).startsWith ['"', '"', '"'] then
        advance 3
        return done
      else
        advance 1
        basicString multiline n (done ++ ['"'])
    | some '\\' => basicString multiline n (done ++ (← escape multiline))
    | some x =>
      if (if multiline then isControlNotBreak x else isControl x) then fail (.illegalCharacter x)
      else
        advance 1
        basicString multiline n (done ++ [x])

def oneLineString : Reading String := do
  advance 1
  let n := (← get).rest.length
  return String.ofList (← basicString false (n + 1) [])

def upTo (quote : List Char) (bad : Char → Bool) : Reading (List Char) := do
  let c ← get
  match before? quote c.rest with
  | none =>
    advance c.rest.length
    fail (.missingQuote (String.ofList quote))
  | some n =>
    let body ← skipClean bad n
    advance quote.length
    return body

def literalString : Reading String := do
  advance 1
  return String.ofList (← upTo ['\''] isControl)

def multilineString (literal : Bool) : Reading String := do
  advance 3
  if (← peek) = some '\n' then advance 1
  let mark := if literal then '\'' else '"'
  let n := (← get).rest.length
  let body ←
    if literal then upTo [mark, mark, mark] isControlNotBreak else basicString true (n + 1) []
  let extra := ((← get).rest.take 2).takeWhile (· = mark)
  advance extra.length
  return String.ofList (body ++ extra)

/-! ### Keys -/

def keyPart : Reading String := do
  match ← peek with
  | some '\'' => literalString
  | some '"' => oneLineString
  | some x =>
    if isKeyChar x then
      let name := (← get).rest.takeWhile isKeyChar
      advance name.length
      return String.ofList name
    else fail .badKey
  | none => fail .badKey

def keyRest : Nat → Key → Reading Key
  | 0, key => return key
  | n + 1, key => do
    skip isSpace
    if (← peek) = some '.' then
      advance 1
      skip isSpace
      let part ← keyPart
      keyRest n (key ++ [part])
    else return key

def key : Reading Key := do
  let first ← keyPart
  let n := (← get).rest.length
  keyRest (n + 1) [first]

/-! ### Numbers, dates and times -/

def digitTail (p : Char → Bool) : List Char → List Char
  | '_' :: d :: more => if p d then '_' :: d :: digitTail p more else []
  | c :: more => if p c then c :: digitTail p more else []
  | [] => []

def digitRun (p : Char → Bool) : List Char → List Char
  | c :: rest => if p c then c :: digitTail p rest else []
  | [] => []

def prefixed? : List Char → Option (Nat × List Char)
  | '0' :: x :: rest =>
    let found (base : Nat) (p : Char → Bool) :=
      let digits := digitRun p rest
      if digits.isEmpty then none else some (base, '0' :: x :: digits)
    if x = 'x' then found 16 isHexDigit
    else if x = 'b' then found 2 fun c => c = '0' || c = '1'
    else if x = 'o' then found 8 fun c => '0' ≤ c && c ≤ '7'
    else none
  | _ => none

def signOf : List Char → List Char
  | '+' :: _ => ['+']
  | '-' :: _ => ['-']
  | _ => []

def integerPart : List Char → List Char
  | '0' :: _ => ['0']
  | cs => digitRun isDigit cs

def fraction : List Char → List Char
  | '.' :: rest =>
    let digits := digitRun isDigit rest
    if digits.isEmpty then [] else '.' :: digits
  | _ => []

def exponent : List Char → List Char
  | e :: rest =>
    if e = 'e' || e = 'E' then
      let sign := signOf rest
      let digits := digitRun isDigit (rest.drop sign.length)
      if digits.isEmpty then [] else e :: sign ++ digits
    else []
  | [] => []

def number? (cs : List Char) : Option (Nat × Option Value) :=
  match prefixed? cs with
  | some (base, text) =>
    let digits := (text.drop 2).filter (· != '_')
    some (text.length, (Number.readDigits? base 0 digits).map fun n => .int n)
  | none =>
    let sign := signOf cs
    let whole := integerPart (cs.drop sign.length)
    if whole.isEmpty then none
    else
      let behind := cs.drop (sign.length + whole.length)
      let part := fraction behind
      let power := exponent (behind.drop part.length)
      let text := sign ++ whole ++ part ++ power
      if part.isEmpty && power.isEmpty then
        some (text.length, (Number.readInteger? 10 text).map .int)
      else some (text.length, some (.float (String.ofList text)))

def twoDigits? (low high : Nat) : List Char → Option (Nat × List Char)
  | a :: b :: rest =>
    if isDigit a && isDigit b then
      let n := (a.toNat - 48) * 10 + (b.toNat - 48)
      if low ≤ n && n ≤ high then some (n, rest) else none
    else none
  | _ => none

def behind? (c : Char) : List Char → Option (List Char)
  | x :: rest => if x = c then some rest else none
  | [] => none

def timeRest? (cs : List Char) : Option (List Char) := do
  let (_, cs) ← twoDigits? 0 23 cs
  let (_, cs) ← twoDigits? 0 59 (← behind? ':' cs)
  let (_, cs) ← twoDigits? 0 59 (← behind? ':' cs)
  match cs with
  | '.' :: rest =>
    let digits := rest.takeWhile isDigit
    return if digits.isEmpty then cs else rest.drop digits.length
  | _ => return cs

def offsetRest (cs : List Char) : List Char :=
  match cs with
  | z :: rest =>
    if z = 'Z' || z = 'z' then rest
    else if z = '+' || z = '-' then
      let found : Option (List Char) := do
        let (_, cs) ← twoDigits? 0 23 rest
        let (_, cs) ← twoDigits? 0 59 (← behind? ':' cs)
        return cs
      found.getD cs
    else cs
  | [] => cs

def daysIn (year month : Nat) : Nat :=
  if month = 2 then
    if (year % 4 = 0 && year % 100 != 0) || year % 400 = 0 then 29 else 28
  else if month = 4 || month = 6 || month = 9 || month = 11 then 30
  else 31

def dateRest? (cs : List Char) : Option (Bool × List Char) := do
  let year := cs.take 4
  if year.length != 4 || !year.all isDigit then none
  let y := (Number.readDigits? 10 0 year).getD 0
  let (m, rest) ← twoDigits? 1 12 (← behind? '-' (cs.drop 4))
  let (d, rest) ← twoDigits? 1 31 (← behind? '-' rest)
  return (1 ≤ y && d ≤ daysIn y m, rest)

def moment? (cs : List Char) : Option (Nat × Option Value) :=
  let textTo (rest : List Char) := cs.take (cs.length - rest.length)
  match dateRest? cs with
  | some (exists_, rest) =>
    let withTime : Option (List Char) :=
      match rest with
      | t :: more => if t = 'T' || t = 't' || t = ' ' then (timeRest? more).map offsetRest else none
      | [] => none
    match withTime with
    | some stop =>
      let text := textTo stop
      some (text.length, if exists_ then some (.datetime (String.ofList text)) else none)
    | none =>
      let text := textTo rest
      some (text.length, if exists_ then some (.date (String.ofList text)) else none)
  | none =>
    (timeRest? cs).map fun rest =>
      let text := textTo rest
      (text.length, some (.time (String.ofList text)))

def special? (cs : List Char) : Option Nat :=
  let sign := signOf cs
  let word := (cs.drop sign.length).take 3
  if word = ['i', 'n', 'f'] || word = ['n', 'a', 'n'] then some (sign.length + 3) else none

def plainValue : Reading Value := do
  let c ← get
  if c.startsWith ['t', 'r', 'u', 'e'] then
    advance 4
    return .bool true
  else if c.startsWith ['f', 'a', 'l', 's', 'e'] then
    advance 5
    return .bool false
  else
    match moment? c.rest with
    | some (n, some v) => advance n; return v
    | some (_, none) => fail .invalidDate
    | none =>
      match number? c.rest with
      | some (n, some v) => advance n; return v
      | some (_, none) => fail .hugeInteger
      | none =>
        match special? c.rest with
        | some n => advance n; return .float (String.ofList (c.rest.take n))
        | none => fail .invalidValue

/-! ### Values -/

structure Inline where
  entries : Table
  marks : Marks

def Inline.add (t : Inline) (k : Key) (v : Value) : Reading Inline := do
  if t.marks.has k .frozen then fail (.immutable k)
  let stem := k.getLast?.getD ""
  let entries ←
    match Table.modifyAt false some k.dropLast t.entries with
    | none => fail .overwrite
    | some _ =>
      match Table.modifyAt false
          (fun inner => if (inner.find? stem).isSome then none else some (inner.put stem v))
          k.dropLast t.entries with
      | none => fail (.duplicateKey stem)
      | some entries => pure entries
  return { t with entries }

def Inline.freeze (t : Inline) (k : Key) (v : Value) : Inline :=
  match v with
  | .table _ => { t with marks := (k, .frozen) :: t.marks }
  | .array _ => { t with marks := (k, .frozen) :: t.marks }
  | _ => t

mutual

def value : Nat → Reading Value
  | 0 => fail .invalidValue
  | n + 1 => do
    let c ← get
    match c.rest.head? with
    | some '"' =>
      if c.startsWith ['"', '"', '"'] then return .string (← multilineString false)
      else return .string (← oneLineString)
    | some '\'' =>
      if c.startsWith ['\'', '\'', '\''] then return .string (← multilineString true)
      else return .string (← literalString)
    | some '[' =>
      advance 1
      skipFiller (c.rest.length + 1)
      if (← peek) = some ']' then
        advance 1
        return .array []
      else arrayItems n []
    | some '\x7b' =>
      advance 1
      skip isSpace
      if (← peek) = some '\x7d' then
        advance 1
        return .table []
      else inlinePairs n ⟨[], []⟩
    | _ => plainValue

def arrayItems : Nat → List Value → Reading Value
  | 0, _ => fail .unclosedArray
  | n + 1, items => do
    let v ← value n
    let items := items ++ [v]
    let m := (← get).rest.length + 1
    skipFiller m
    match ← peek with
    | some ']' =>
      advance 1
      return .array items
    | some ',' =>
      advance 1
      skipFiller m
      if (← peek) = some ']' then
        advance 1
        return .array items
      else arrayItems n items
    | _ => fail .unclosedArray

def inlinePairs : Nat → Inline → Reading Value
  | 0, _ => fail .unclosedInlineTable
  | n + 1, t => do
    let (k, v) ← pair n
    let t ← t.add k v
    skip isSpace
    match ← peek with
    | some '\x7d' =>
      advance 1
      return .table t.entries
    | some ',' =>
      advance 1
      skip isSpace
      inlinePairs n (t.freeze k v)
    | _ => fail .unclosedInlineTable

def pair : Nat → Reading (Key × Value)
  | 0 => fail .missingEquals
  | n + 1 => do
    let k ← key
    if (← peek) != some '=' then fail .missingEquals
    advance 1
    skip isSpace
    let v ← value n
    return (k, v)

end

/-! ### Statements -/

/-- A document, while it is read: its tables, their marks, the marks that hold from the next header
on, and the table that pairs belong to. -/
structure Document where
  root : Table
  marks : Marks
  pending : Marks
  header : Key

def leads (header k : Key) : List Key :=
  (List.range (k.length - 1)).map fun i => header ++ k.take (i + 1)

def Document.pair (d : Document) (size : Nat) : Reading Document := do
  let (k, v) ← Toml.pair size
  let parents := leads d.header k
  match parents.find? fun p => d.marks.has p .declared with
  | some p => fail (.redefined p)
  | none => pure ()
  let nest := d.header ++ k.dropLast
  if d.marks.has nest .frozen then fail (.immutable nest)
  let stem := k.getLast?.getD ""
  let put (t : Table) : Option Table :=
    if (t.find? stem).isSome then none else some (t.put stem v)
  match Table.modifyAt true put nest d.root with
  | none => fail .overwrite
  | some root =>
    let frozen : Marks :=
      match v with
      | .table _ => [(d.header ++ k, .frozen)]
      | .array _ => [(d.header ++ k, .frozen)]
      | _ => []
    return { d with
      root, marks := frozen ++ d.marks, pending := parents.map (·, .declared) ++ d.pending }

def Document.settle (d : Document) : Document :=
  { d with marks := d.pending ++ d.marks, pending := [] }

def Document.table (d : Document) : Reading Document := do
  advance 1
  skip isSpace
  let k ← key
  if d.marks.has k .declared || d.marks.has k .frozen then fail (.declaredTwice k)
  match Table.modifyAt true some k d.root with
  | none => fail .overwrite
  | some root =>
    if (← peek) != some ']' then fail .unclosedHeader
    advance 1
    return { d with root, marks := (k, .declared) :: d.marks, header := k }

def Document.listTable (d : Document) : Reading Document := do
  advance 2
  skip isSpace
  let k ← key
  if d.marks.has k .frozen then fail (.immutable k)
  let stem := k.getLast?.getD ""
  let push (t : Table) : Option Table :=
    match t.find? stem with
    | none => some (t.put stem (.array [.table []]))
    | some (.array items) => some (t.put stem (.array (items ++ [.table []])))
    | some _ => none
  match Table.modifyAt true push k.dropLast d.root with
  | none => fail .overwrite
  | some root =>
    if !(← get).startsWith [']', ']'] then fail .unclosedListHeader
    advance 2
    return { d with root, marks := (k, .declared) :: d.marks.clear k, header := k }

def Document.statements : Nat → Document → Reading Document
  | 0, d => return d
  | n + 1, d => do
    skip isSpace
    match ← peek with
    | none => return d
    | some '\n' =>
      advance 1
      statements n d
    | some x =>
      let d ←
        if isKeyStart x then do
          let d ← d.pair (n + 1)
          skip isSpace
          pure d
        else if x = '[' then do
          let d := d.settle
          let d ← if (← get).startsWith ['[', '['] then d.listTable else d.table
          skip isSpace
          pure d
        else if x = '#' then pure d
        else fail .invalidStatement
      skipComment
      match ← peek with
      | none => return d
      | some '\n' =>
        advance 1
        statements n d
      | some _ => fail .textBehindStatement

def joinBreaks : List Char → List Char
  | '\r' :: '\n' :: rest => '\n' :: joinBreaks rest
  | c :: rest => c :: joinBreaks rest
  | [] => []

def read (text : String) : Except Fault Table :=
  let cs := joinBreaks text.toList
  match Document.statements (4 * cs.length + 4) ⟨[], [], [], []⟩ ⟨cs, .first⟩ with
  | .ok (d, _) => .ok d.root
  | .error f => .error f

end Xdr.Toml
