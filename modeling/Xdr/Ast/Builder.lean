import Xdr.Ast
import Xdr.Number.Literal
import Xdr.Tree

/-!
# From trees to definitions

Each node of the tree becomes a definition, a declaration or a number. The builder takes any tree,
also one that no text has, and stops at the first node that it cannot use.
-/

namespace Xdr.Ast

/-! ### Faults -/

/-- How a tree differs from those of the grammar; `rule` is the name of the node. -/
inductive TreeDefect
  | topLevel (rule : String)
  | missingToken (rule : String)
  | notAValue (rule : String)
  | missingName (rule : String)
  | unknownSpecifier (rule : String)
  | notADeclaration (rule : String)
  | missingOperand (rule : String)
  | missingBody (rule body : String)
  | missingDeclaration (rule : String)
deriving DecidableEq

def TreeDefect.message : TreeDefect → String
  | topLevel rule => s!"unexpected top-level node '{rule}'"
  | missingToken rule => s!"{rule}: missing token"
  | notAValue rule => s!"expected a value, found '{rule}'"
  | missingName rule => s!"{rule}: missing NAME"
  | unknownSpecifier rule => s!"unknown type specifier '{rule}'"
  | notADeclaration rule => s!"expected a declaration, found '{rule}'"
  | missingOperand rule => s!"missing operand under '{rule}'"
  | missingBody rule body => s!"{rule}: missing {body}"
  | missingDeclaration rule => s!"{rule}: missing declaration"

inductive BuildCause
  | octal (literal : String)
  | unreadable (literal : String)
  | duplicate (name : String) (previous : Option Span)
  | misplacedVoid
  | defect (d : TreeDefect)
  | notASpecification
deriving DecidableEq

structure BuildFault where
  cause : BuildCause
  span : Option Span
deriving DecidableEq

abbrev Build := Except BuildFault

end Xdr.Ast

/-! ### Looking into trees -/

namespace Xdr.Tree

def rule : Tree → String
  | leaf .. => ""
  | node rule _ _ => rule

def children : Tree → List Tree
  | leaf .. => []
  | node _ children _ => children

def isNodeIn (rules : List String) : Tree → Bool
  | leaf .. => false
  | node rule _ _ => rules.contains rule

def asName? : Tree → Option (String × Option Span)
  | leaf kind text span => if kind = "NAME" then some (text, span) else none
  | node .. => none

def firstName? (t : Tree) : Option (String × Option Span) := t.children.findSome? asName?

def firstIn? (rules : List String) (t : Tree) : Option Tree := t.children.find? (isNodeIn rules)

def nodesNamed (rule : String) (t : Tree) : List Tree := t.children.filter (isNodeIn [rule])

def defect {α : Type} (t : Tree) (d : Ast.TreeDefect) : Ast.Build α := .error ⟨.defect d, t.span?⟩

def operand (t : Tree) : Ast.Build Tree :=
  match t.children.find? isNode with
  | some child => .ok child
  | none => t.defect (.missingOperand t.rule)

def requiredName (t : Tree) : Ast.Build (String × Option Span) :=
  match t.firstName? with
  | some name => .ok name
  | none => t.defect (.missingName t.rule)

def requiredBody (body : String) (t : Tree) : Ast.Build Tree :=
  match t.firstIn? [body] with
  | some child => .ok child
  | none => t.defect (.missingBody t.rule body)

end Xdr.Tree

namespace Xdr.Ast

/-! ### Numbers, types and declarations -/

def buildValue (t : Tree) : Build Value :=
  match t.children with
  | .leaf _ text span :: _ =>
    if t.rule = "literal" then
      match Number.parseLiteral text with
      | .ok value => .ok (.literal span value text)
      | .error .octalDigit => .error ⟨.octal text, span⟩
      | .error .malformed => .error ⟨.unreadable text, span⟩
    else if t.rule = "reference" then .ok (.reference span text)
    else t.defect (.notAValue t.rule)
  | _ => t.defect (.missingToken t.rule)

def builtinOfRule? (rule : String) : Option Builtin :=
  [("int_t", Builtin.int), ("unsigned_int_t", .uint), ("hyper_t", .hyper),
   ("unsigned_hyper_t", .uhyper), ("float_t", .float), ("double_t", .double),
   ("quadruple_t", .quadruple), ("bool_t", .bool)].lookup rule

def inlineKindOfRule? (rule : String) : Option String :=
  [("inline_enum_t", "enum"), ("inline_struct_t", "struct"), ("inline_union_t", "union")].lookup
    rule

def buildBase (t : Tree) : Build Base :=
  match builtinOfRule? t.rule, inlineKindOfRule? t.rule with
  | some b, _ => .ok (.builtin b)
  | none, some kind => .ok (.inlineBody t.span? kind)
  | none, none =>
    if t.rule = "name_t" || t.rule = "tagged_ref_t" then do
      let (name, _) ← t.requiredName
      match Builtin.ofAlias? name with
      | some b => .ok (.builtin b)
      | none => .ok (.named name)
    else t.defect (.unknownSpecifier t.rule)

def declarationRuleNames : List String :=
  ["scalar_decl", "fixed_array_decl", "var_array_decl", "fixed_opaque_decl", "var_opaque_decl",
   "string_decl", "optional_decl", "void_decl"]

def buildSize (t : Tree) : Build (Option Value) :=
  match t.firstIn? ["literal", "reference"] with
  | some child => (buildValue child).map some
  | none => .ok none

def arityOfRule (rule : String) : Arity :=
  if rule = "fixed_array_decl" then .fixed
  else if rule = "var_array_decl" then .varying
  else if rule = "optional_decl" then .optional
  else .scalar

def buildTypeRef (t : Tree) (size : Option Value) : Build TypeRef :=
  if t.rule = "fixed_opaque_decl" then
    .ok ⟨t.span?, .builtin .opaqueBytes, .fixed, size⟩
  else if t.rule = "var_opaque_decl" then
    .ok ⟨t.span?, .builtin .opaqueBytes, .varying, size⟩
  else if t.rule = "string_decl" then
    .ok ⟨t.span?, .builtin .string, .varying, size⟩
  else do
    let spec ← t.operand
    let base ← buildBase spec
    return ⟨spec.span?, base, arityOfRule t.rule, size⟩

def buildDeclaration (t : Tree) : Build Declaration :=
  if !declarationRuleNames.contains t.rule then t.defect (.notADeclaration t.rule)
  else if t.rule = "void_decl" then
    .ok ⟨t.span?, none, ⟨t.span?, .builtin .void, .scalar, none⟩, none⟩
  else do
    let (name, nameSpan) ← t.requiredName
    let size ← buildSize t
    let ty ← buildTypeRef t size
    return ⟨t.span?, some name, ty, nameSpan⟩

def buildInnerDeclaration (t : Tree) : Build Declaration :=
  match t.firstIn? declarationRuleNames with
  | some child => buildDeclaration child
  | none => t.defect (.missingDeclaration t.rule)

/-! ### Definitions -/

def buildConst (t : Tree) : Build Definition := do
  let (name, nameSpan) ← t.requiredName
  let value ← buildValue (← t.operand)
  return .const ⟨t.span?, name, value, nameSpan⟩

def buildVariant (t : Tree) : Build EnumVariant := do
  let (name, nameSpan) ← t.requiredName
  let value ← buildValue (← t.operand)
  return ⟨t.span?, name, value, nameSpan⟩

def buildEnum (t : Tree) : Build Definition := do
  let (name, nameSpan) ← t.requiredName
  let body ← t.requiredBody "enum_body"
  let variants ← (body.nodesNamed "enum_variant").mapM buildVariant
  return .enum ⟨t.span?, name, variants, nameSpan⟩

def buildStruct (t : Tree) : Build Definition := do
  let (name, nameSpan) ← t.requiredName
  let body ← t.requiredBody "struct_body"
  let fields ← (body.children.filter Tree.isNode).mapM buildDeclaration
  return .struct ⟨t.span?, name, fields, nameSpan⟩

def buildTypedef (t : Tree) : Build Definition := do
  let decl ← buildDeclaration (← t.operand)
  match decl.name with
  | none => .error ⟨.misplacedVoid, t.span?⟩
  | some name => return .typedef ⟨t.span?, name, decl, decl.nameSpan⟩

def buildArm (t : Tree) : Build UnionArm := do
  let labels ← (t.nodesNamed "case_label").mapM fun label => do buildValue (← label.operand)
  let decl ← buildInnerDeclaration t
  return ⟨t.span?, labels, decl⟩

def buildFallback (t : Tree) : Build (Option Declaration) :=
  match t.firstIn? ["default_spec"] with
  | some node => (buildInnerDeclaration node).map some
  | none => .ok none

def buildUnion (t : Tree) : Build Definition := do
  let (name, nameSpan) ← t.requiredName
  let body ← t.requiredBody "union_body"
  let discriminant ← buildInnerDeclaration body
  let arms ← (body.nodesNamed "case_spec").mapM buildArm
  let fallback ← buildFallback body
  return .union ⟨t.span?, name, discriminant, arms, fallback, nameSpan⟩

def buildDefinition (t : Tree) : Build Definition :=
  if t.rule = "const_def" then buildConst t
  else if t.rule = "enum_def" then buildEnum t
  else if t.rule = "struct_def" then buildStruct t
  else if t.rule = "typedef_def" then buildTypedef t
  else if t.rule = "union_def" then buildUnion t
  else t.defect (.topLevel t.rule)

def buildDefinitions (seen : List (String × Option Span)) : List Tree → Build (List Definition)
  | [] => .ok []
  | t :: rest => do
    let d ← buildDefinition t
    match seen.lookup d.name with
    | some previous => .error ⟨.duplicate d.name previous, d.nameSpan⟩
    | none => return d :: (← buildDefinitions ((d.name, d.nameSpan) :: seen) rest)

def build (t : Tree) : Build Specification :=
  match t with
  | .node "specification" children span => do
    let definitions ← buildDefinitions [] (children.filter Tree.isNode)
    return ⟨span, definitions⟩
  | _ => .error ⟨.notASpecification, none⟩

end Xdr.Ast
