import Xdr.Module.Load

/-!
# Bodies of classes

What the methods of a class do, with every name that they mention resolved as the loaded module
resolves it.
-/

namespace Xdr

open Naming

/-- What a field adds to the encoded size. -/
inductive Share
  | fixed (n : Nat)
  | opaqueBytes
  | text
  /-- A flag, and what is behind it; the size of that when it is always the same. -/
  | optional (element : Option Nat)
  /-- Bytes before the items, and the size of one item when it is always the same. -/
  | items (before : Nat) (element : Option Nat)
  | own
  | unknown
deriving DecidableEq

def Schema.share (s : Schema) (support : Imports.Support) (d : Shape) : Share :=
  match s.sizeOf d with
  | .fixed n => .fixed n
  | .varying =>
    let element := (s.sizeOf (.scalar d.base)).bytes?
    match d.base, d.arity with
    | .builtin .opaqueBytes, _ => if support = .whole then .opaqueBytes else .unknown
    | .builtin .string, _ => if support = .whole then .text else .unknown
    | _, .optional => .optional element
    | _, .fixed => .items 0 element
    | _, .varying => .items 4 element
    | _, .scalar => .own

structure Slot where
  shown : String
  attr : String
  form : Form
  share : Share

/-- A list of nodes: the slots before and behind the link, the link, and the typedefs around it,
outermost first. -/
structure ChainBody where
  before : List Slot
  link : String
  linkShown : String
  behind : List Slot
  wrappers : List (String × Mention)

/-- How a union builds one of its arms: the labels that select it, the class, and the form of what
the arm holds. -/
structure Branch where
  labels : List (Except Fault Value)
  target : Except Fault Value
  payload : Option Form

structure UnionBody where
  name : String
  disc : Form
  discSize : Nat
  branches : List Branch
  fallback : Option Branch

structure ArmBody where
  disc : Slot
  discSize : Nat
  payload : Option Slot
  isDefault : Bool

inductive Body
  | record (slots : List Slot)
  | chain (c : ChainBody)
  | union (u : UnionBody)
  | arm (a : ArmBody)

/-- A loaded module: its names and classes, and the sizes and bodies of the classes. -/
structure Module extends Globals where
  bodies : List (ClassKey × Option Nat × Body) := []
  /-- Levels of nesting that decoding may take without taking bytes. -/
  ranks : Nat := 0

namespace Module

def body? (m : Module) (key : ClassKey) : Option Body := (m.bodies.lookup key).map (·.2)

def size? (m : Module) (key : ClassKey) : Option Nat := (m.bodies.lookup key).bind (·.1)

end Module

/-- What bodies are made of: the schema, the names of the module, and its support. -/
structure Linker where
  schema : Schema
  globals : Globals
  support : Imports.Support

namespace Linker

def form (l : Linker) (key : ClassKey) (d : Shape) : Form :=
  l.schema.form (l.globals.mention key) d

def slot (l : Linker) (key : ClassKey) (name : String) (d : Shape) : Slot :=
  ⟨name, privateName key.bodyName name, l.form key d, l.schema.share l.support d⟩

def structBody (l : Linker) (t : StructType) : Body :=
  let key := ClassKey.type t.name
  let slots (fields : List (String × Decl)) := fields.map fun (name, d) => l.slot key name d.toShape
  match l.schema.chain? t with
  | none => .record (slots t.plan)
  | some c =>
    .chain {
      before := slots c.before
      link := privateName key.bodyName c.link
      linkShown := c.link
      behind := slots c.behind
      wrappers := c.wrappers.map fun name => (globalName name, l.globals.mention key name) }

def branch (l : Linker) (t : TypeInfo) (p : UnionPlan) (a : ArmPlan) : Branch :=
  let key := ClassKey.type t.name
  { labels := a.labels.map (l.globals.label key p)
    target := do l.globals.attr (← l.globals.resolve key t.name) (privateName key.bodyName a.attr)
    payload := a.payload?.map fun _ => l.form key a.decl.toShape }

def unionBody (l : Linker) (t : TypeInfo) (p : UnionPlan) : Body :=
  .union {
    name := t.name
    disc := l.form (.type t.name) p.disc
    discSize := p.discSize
    branches := (p.arms.filter (!·.isDefault)).map (l.branch t p)
    fallback := (p.arms.find? (·.isDefault)).map (l.branch t p) }

def armBody (l : Linker) (t : TypeInfo) (p : UnionPlan) (a : ArmPlan) : Body :=
  let key := ClassKey.arm t.name a.attr
  .arm {
    disc := l.slot key p.discField p.disc
    discSize := p.discSize
    payload := a.payload?.map fun name => l.slot key name a.decl.toShape
    isDefault := a.isDefault }

def bodies (l : Linker) (t : TypeInfo) : List (ClassKey × Option Nat × Body) :=
  let size := t.size.bytes?
  let key := ClassKey.type t.name
  match t.definition with
  | .enum _ => []
  | .struct d => [(key, size, l.structBody d)]
  | .typedef d => [(key, size, .record [l.slot key "value" d.decl.toShape])]
  | .union u =>
    match l.schema.unionPlan? u with
    | none => []
    | some p =>
      (key, size, l.unionBody t p) ::
        p.arms.map fun a => (.arm t.name a.attr, size, l.armBody t p a)

end Linker

def Module.load (s : Schema) (c : Config) : Except LoadFault Module := do
  let support ← checkText s c
  let globals ← Globals.load s c support
  let linker : Linker := ⟨s, globals, support⟩
  return { globals with bodies := s.types.flatMap linker.bodies, ranks := s.types.length + 1 }

end Xdr
