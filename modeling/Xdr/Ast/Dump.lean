import Xdr.Ast
import Xdr.Number.Literal
import Xdr.Text.Quoted

/-!
# Dumps of definitions

An outline with one line a field, nested fields below their name. Positions are left out.
-/

namespace Xdr.Ast

inductive Outline
  | atom (text : String)
  | group (items : List Outline)
  | node (title : String) (fields : List (String × Outline))

namespace Outline

open Text (indentation)

mutual

def lines (level : Nat) : Outline → List String
  | atom text => [indentation level ++ text]
  | group items => linesAll level items
  | node title fields => (indentation level ++ title) :: linesFields level fields

def linesAll (level : Nat) : List Outline → List String
  | [] => []
  | o :: os => lines level o ++ linesAll level os

def linesFields (level : Nat) : List (String × Outline) → List String
  | [] => []
  | (name, atom text) :: rest =>
    (indentation level ++ "  " ++ name ++ ": " ++ text) :: linesFields level rest
  | (name, group []) :: rest =>
    (indentation level ++ "  " ++ name ++ ": []") :: linesFields level rest
  | (name, group (i :: is)) :: rest =>
    (indentation level ++ "  " ++ name ++ ":") ::
      (lines (level + 2) i ++ linesAll (level + 2) is ++ linesFields level rest)
  | (name, node title fields) :: rest =>
    (indentation level ++ "  " ++ name ++ ":") ::
      (indentation (level + 2) ++ title) ::
        (linesFields (level + 2) fields ++ linesFields level rest)

end

def render (o : Outline) : String := String.intercalate "\n" (o.lines 0)

def text (s : String) : Outline := atom (Text.quote s)

def opt {α : Type} (f : α → Outline) : Option α → Outline
  | none => atom "None"
  | some a => f a

end Outline

open Outline

def Value.outline : Value → Outline
  | literal _ value t => node "Literal" [("value", atom (toString value)), ("text", text t)]
  | reference _ name => node "ConstRef" [("name", text name)]

def Base.outline : Base → Outline
  | builtin b => atom b.spelling
  | named name => text name
  | inlineBody _ kind => node "InlineBody" [("kind", text kind)]

def TypeRef.outline (t : TypeRef) : Outline :=
  node "TypeRef" [("base", t.base.outline), ("arity", atom t.arity.spelling),
    ("size", opt Value.outline t.size)]

def Declaration.outline (d : Declaration) : Outline :=
  node "Declaration" [("name", opt text d.name), ("ty", d.ty.outline)]

def EnumVariant.outline (v : EnumVariant) : Outline :=
  node "EnumVariant" [("name", text v.name), ("value", v.value.outline)]

def UnionArm.outline (a : UnionArm) : Outline :=
  node "UnionArm" [("labels", group (a.labels.map (·.outline))), ("decl", a.decl.outline)]

def Definition.outline : Definition → Outline
  | const d => node "ConstDef" [("name", text d.name), ("value", d.value.outline)]
  | enum d =>
    node "EnumDef" [("name", text d.name), ("variants", group (d.variants.map (·.outline)))]
  | struct d =>
    node "StructDef" [("name", text d.name), ("fields", group (d.fields.map (·.outline)))]
  | typedef d => node "TypedefDef" [("name", text d.name), ("decl", d.decl.outline)]
  | union d =>
    node "UnionDef" [("name", text d.name), ("discriminant", d.discriminant.outline),
      ("arms", group (d.arms.map (·.outline))),
      ("default", opt Declaration.outline d.fallback)]

def Value.isWritable : Value → Bool
  | literal _ value _ => Number.isWritable value
  | reference _ _ => true

def Specification.dump? (s : Specification) : Option String :=
  if (s.definitions.flatMap (·.numbers)).all (·.isWritable) then
    some (node "Specification" [("definitions", group (s.definitions.map (·.outline)))]).render
  else none

end Xdr.Ast
