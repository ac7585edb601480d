import Xdr.Config
import Xdr.Text.Quoted

/-!
# Arguments

The switches of the command and the way arguments are read.
-/

namespace Xdr.CommandLine

inductive Switch
  | help
  | version
  | out
  | config
  | strictPadding
  | runtimeModule
  | noAll
  | dumpParse
  | dumpAst
  | verbose
deriving DecidableEq

namespace Switch

def all : List Switch :=
  [help, version, out, config, strictPadding, runtimeModule, noAll, dumpParse, dumpAst, verbose]

def spellings : Switch → List String
  | help => ["-h", "--help"]
  | version => ["--version"]
  | out => ["-o", "--out"]
  | config => ["--config"]
  | strictPadding => ["--strict-padding"]
  | runtimeModule => ["--runtime-module"]
  | noAll => ["--no-all"]
  | dumpParse => ["--dump-parse"]
  | dumpAst => ["--dump-ast"]
  | verbose => ["-v", "--verbose"]

def mention (s : Switch) : String := "argument " ++ String.intercalate "/" s.spellings ++ ": "

def takesValue : Switch → Bool
  | out => true
  | config => true
  | runtimeModule => true
  | _ => false

end Switch

def spellingTable : List (String × Switch) :=
  Switch.all.flatMap fun s => s.spellings.map fun spelling => (spelling, s)

inductive UsageFault
  | ambiguous (argument : String) (candidates : List String)
  | noValue (s : Switch)
  | unusedValue (s : Switch) (value : String)
  | unrecognized (arguments : List String)
deriving DecidableEq

def UsageFault.message : UsageFault → String
  | ambiguous argument candidates =>
    "ambiguous option: " ++ argument ++ " could match " ++ String.intercalate ", " candidates
  | noValue s => s.mention ++ "expected one argument"
  | unusedValue s value => s.mention ++ "ignored explicit argument " ++ Text.quote value
  | unrecognized arguments => "unrecognized arguments: " ++ String.intercalate " " arguments

/-- A switch as it was written: with one dash or two, and with a text attached to it. -/
structure Written where
  switch : Switch
  short : Bool
  attached : Option String := none
deriving DecidableEq

inductive Reading
  | word
  | separator
  | switch (w : Written)
  | unknown
deriving DecidableEq

def isShort (spelling : String) : Bool := !spelling.startsWith "--"

def splitEquals (s : String) : String × Option String :=
  let front := s.toList.takeWhile (· != '=')
  match s.toList.drop front.length with
  | [] => (s, none)
  | _ :: value => (String.ofList front, some (String.ofList value))

def candidates (argument : String) : List (String × Written) :=
  if isShort argument then
    let front := String.ofList (argument.toList.take 2)
    let value := String.ofList (argument.toList.drop 2)
    spellingTable.filterMap fun (spelling, s) =>
      if spelling = front then some (spelling, ⟨s, true, some value⟩)
      else if spelling.startsWith argument then some (spelling, ⟨s, isShort spelling, none⟩)
      else none
  else
    let (front, value) := splitEquals argument
    spellingTable.filterMap fun (spelling, s) =>
      if spelling.startsWith front then some (spelling, ⟨s, isShort spelling, value⟩) else none

def areDigits (cs : List Char) : Bool := !cs.isEmpty && cs.all Text.isDecimal

def isNegativeNumber (argument : String) : Bool :=
  match argument.toList with
  | '-' :: cs =>
    let cs := dropFinalBreak cs
    let whole := cs.takeWhile Text.isDecimal
    match cs.drop whole.length with
    | [] => areDigits whole
    | '.' :: fraction => areDigits fraction
    | _ => false
  | _ => false

def reading (argument : String) : Except UsageFault Reading :=
  if !argument.startsWith "-" then .ok .word
  else if argument = "--" then .ok .separator
  else
    match spellingTable.lookup argument with
    | some s => .ok (.switch ⟨s, isShort argument, none⟩)
    | none =>
      if argument = "-" then .ok .word
      else
        let (front, value) := splitEquals argument
        match value, spellingTable.lookup front with
        | some v, some s => .ok (.switch ⟨s, isShort front, some v⟩)
        | _, _ =>
          match candidates argument with
          | [(_, w)] => .ok (.switch w)
          | [] =>
            if isNegativeNumber argument || argument.toList.contains ' ' then .ok .word
            else .ok .unknown
          | several => .error (.ambiguous argument (several.map (·.1)))

def readings : List String → Except UsageFault (List (String × Reading))
  | [] => .ok []
  | argument :: rest => do
    match ← reading argument with
    | .separator => return (argument, .separator) :: rest.map fun word => (word, .word)
    | r => return (argument, r) :: (← readings rest)

structure Arguments where
  source : Option String := none
  version : Bool := false
  out : Option String := none
  config : Option String := none
  strictPadding : Bool := false
  runtimeModule : Option Setting := none
  noAll : Bool := false
  dumpParse : Bool := false
  dumpAst : Bool := false
  verbosity : Nat := 0
deriving DecidableEq

inductive Refusal
  | help
  | usage (f : UsageFault)
deriving DecidableEq

def valueOf (text : String) : Option String := if text = "--" then none else some text

def settingOf (value : Option String) : Setting := (value.map .text).getD (.other "list")

def Arguments.apply (a : Arguments) (value : Option String) : Switch → Except Refusal Arguments
  | .help => .error .help
  | .version => .ok { a with version := true }
  | .out => .ok { a with out := value }
  | .config => .ok { a with config := value }
  | .strictPadding => .ok { a with strictPadding := true }
  | .runtimeModule => .ok { a with runtimeModule := some (settingOf value) }
  | .noAll => .ok { a with noAll := true }
  | .dumpParse => .ok { a with dumpParse := true }
  | .dumpAst => .ok { a with dumpAst := true }
  | .verbose => .ok { a with verbosity := a.verbosity + 1 }

/-- What one argument with switches asks for: the switches with their values, and a switch that takes
its value from the next argument. -/
structure Cluster where
  switches : List (Switch × Option String) := []
  open? : Option Switch := none

/-- Takes the switches of one argument apart, the first of them with the text attached to it. What a
short switch does not take are more short switches. -/
def cluster (s : Switch) (short : Bool) : List Char → Except UsageFault Cluster
  | [] => .error (.unusedValue s "")
  | c :: rest =>
    if s.takesValue then .ok { switches := [(s, valueOf (String.ofList (c :: rest)))] }
    else
      match short, spellingTable.lookup (String.ofList ['-', c]) with
      | true, some next =>
        if rest.isEmpty then
          if next.takesValue then .ok { switches := [(s, none)], open? := some next }
          else .ok { switches := [(s, none), (next, none)] }
        else (cluster next true rest).map fun found =>
          { found with switches := (s, none) :: found.switches }
      | _, _ => .error (.unusedValue s (String.ofList (c :: rest)))

def Written.cluster (w : Written) : Except UsageFault Cluster :=
  match w.attached, w.switch.takesValue with
  | none, true => .ok { open? := some w.switch }
  | none, false => .ok { switches := [(w.switch, none)] }
  | some value, true => .ok { switches := [(w.switch, valueOf value)] }
  | some value, false => CommandLine.cluster w.switch w.short value.toList

/-- How far the arguments were used: whether the source is still to come, whether it was the last
argument, and what nobody asked for. -/
structure Progress where
  arguments : Arguments := {}
  pending : Bool := true
  fresh : Bool := false
  extras : List String := []

def Progress.word (p : Progress) (text : String) : Progress :=
  if p.pending then
    { p with
      arguments := { p.arguments with source := some text }
      pending := false
      fresh := true }
  else { p with extras := p.extras ++ [text], fresh := false }

def Progress.separator (p : Progress) (text : String) : Progress :=
  if p.pending || p.fresh then { p with fresh := false }
  else { p with extras := p.extras ++ [text] }

def Progress.applyAll (p : Progress) (switches : List (Switch × Option String)) :
    Except Refusal Progress := do
  return { p with arguments := ← switches.foldlM (fun a x => a.apply x.2 x.1) p.arguments }

def consume (p : Progress) : List (String × Reading) → Except Refusal Progress
  | [] => .ok p
  | (text, .word) :: rest => consume (p.word text) rest
  | (text, .separator) :: rest => consume (p.separator text) rest
  | (text, .unknown) :: rest =>
    consume { p with extras := p.extras ++ [text], fresh := false } rest
  | (_, .switch w) :: rest =>
    match w.cluster with
    | .error f => .error (.usage f)
    | .ok c =>
      let p := { p with fresh := false }
      match c.open?, rest with
      | none, rest =>
        match p.applyAll c.switches with
        | .ok p => consume p rest
        | .error r => .error r
      | some s, (value, .word) :: more =>
        match p.applyAll (c.switches ++ [(s, some value)]) with
        | .ok p => consume p more
        | .error r => .error r
      | some s, _ => .error (.usage (.noValue s))

def Arguments.parse (argv : List String) : Except Refusal Arguments :=
  match readings argv with
  | .error f => .error (.usage f)
  | .ok rs =>
    match consume {} rs with
    | .error r => .error r
    | .ok p =>
      if p.extras.isEmpty then .ok p.arguments
      else .error (.usage (.unrecognized p.extras))

end Xdr.CommandLine
