import Xdr.Proofs.Compilation
import Xdr.Proofs.Module.Binding

/-!
# What a type name means

A declaration mentions its type by words of the language, by an anonymous body, or by a name, which
may stand behind `enum`, `struct` or `union`.
-/

namespace Xdr

open List

open Ast (Specification)

variable {ts : List Tree} {name rule : String} {definition : Definition}

namespace Tree

mutual

/-- The declarations in a tree, in the order of the text, those of anonymous bodies included. -/
def declarations : Tree → List Tree
  | leaf .. => []
  | node rule children span =>
    if Ast.declarationRuleNames.contains rule then
      node rule children span :: declarationsAll children
    else declarationsAll children

def declarationsAll : List Tree → List Tree
  | [] => []
  | t :: ts => declarations t ++ declarationsAll ts

end

/-- The name that a type is written as, plain or behind `enum`, `struct` or `union`. -/
def mentionedName? : Tree → Option String
  | node rule [leaf _ name _] _ =>
    if rule = "name_t" || rule = "tagged_ref_t" then some name else none
  | _ => none

/-- The name by which a declaration mentions its type; the type stands first in it. -/
def typeName? : Tree → Option String
  | node _ (type :: _) _ => type.mentionedName?
  | _ => none

lemma declarationsAll_eq (ts : List Tree) : declarationsAll ts = ts.flatMap declarations := by
  induction ts with
  | nil => rfl
  | cons t ts ih => rw [declarationsAll, ih, flatMap_cons]

lemma declarations_node (h : rule ∉ Ast.declarationRuleNames) (children : List Tree)
    (span : Option Span) :
    (node rule children span).declarations = children.flatMap declarations := by
  rw [declarations, if_neg (by simpa using h), declarationsAll_eq]

lemma declarations_declared {t : Tree} (hnode : t.isNode)
    (hrule : t.rule ∈ Ast.declarationRuleNames) :
    t.declarations = t :: t.children.flatMap declarations := by
  cases t with
  | leaf => cases hnode
  | node rule children span =>
    rw [declarations, if_pos (by simpa [Tree.rule] using hrule), declarationsAll_eq, Tree.children]

@[simp]
lemma declarations_leaf (t : Token) : t.leaf.declarations = [] := rfl

section

variable {tokens : List Token} {t : Tree}

lemma declarations_value (h : Node tokens .value t) : t.declarations = [] := by
  cases h with
  | literal | reference => exact declarations_node (by decide) _ _

lemma declarations_variant (h : Node tokens .enumVariant t) : t.declarations = [] := by
  cases h with
  | @variant name value span kind number =>
    rw [declarations_node (by decide)]
    simp [declarations_value number]

lemma declarations_label (h : Node tokens .caseLabel t) : t.declarations = [] := by
  cases h with
  | @label value span number =>
    rw [declarations_node (by decide)]
    simp [declarations_value number]

end

end Tree

namespace Ast

variable {tokens : List Token} {t : Tree} {d : Declaration}

def Base.ofName (name : String) : Base :=
  match Builtin.ofAlias? name with
  | some b => .builtin b
  | none => .named name

def Base.IsPlain : Base → Prop
  | .inlineBody _ _ => False
  | _ => True

lemma declarations_typeSpecifier {base : Base} (h : Tree.Node tokens .typeSpecifier t)
    (hbuild : buildBase t = .ok base) (hplain : base.IsPlain) : t.declarations = [] := by
  have hwords : ∀ rule ∈ declarationRuleNames,
      builtinOfRule? rule = none ∧ inlineKindOfRule? rule = none := by
    decide
  cases h with
  | @builtin rule b span known =>
    refine Tree.declarations_node (fun hrule => ?_) [] span
    rw [(hwords rule hrule).1] at known
    cases known
  | @inlineBody rule kind children span known =>
    -- the node of a body is built into a body, unless it were the word of a builtin type
    have hno : builtinOfRule? rule = none := by
      obtain ⟨front, rest, hlist, -⟩ := lookup_eq_some_iff.1 known
      have hall : ∀ p ∈ front ++ (rule, kind) :: rest, builtinOfRule? p.1 = none := by
        rw [← hlist]
        decide
      exact hall (rule, kind) (by simp)
    simp only [buildBase, Tree.rule, hno, known] at hbuild
    cases hbuild
    exact hplain.elim
  | @mention rule name span known kind =>
    have hrule : ∀ rule ∈ ["name_t", "tagged_ref_t"], rule ∉ declarationRuleNames := by decide
    rw [Tree.declarations_node (hrule rule known)]
    simp

def typedRules : List String :=
  ["scalar_decl", "fixed_array_decl", "var_array_decl", "optional_decl"]

lemma plain_typed : ["scalar_decl", "var_array_decl", "optional_decl"] ⊆ typedRules := by decide

lemma sized_typed : ["fixed_array_decl", "var_array_decl"] ⊆ typedRules := by decide

lemma buildDeclaration_typed {ty : Tree} {rest : List Tree} {span : Option Span}
    (hty : ty.isNode) (hrule : rule ∈ typedRules)
    (hbuild : buildDeclaration (.node rule (ty :: rest) span) = .ok d) :
    buildBase ty = .ok d.ty.base := by
  have hoperand : (Tree.node rule (ty :: rest) span).operand = .ok ty :=
    operand_eq [] rest (forall_mem_nil _) hty rule span
  have hkinds : ∀ rule ∈ typedRules,
      rule ∈ declarationRuleNames ∧ rule ≠ "void_decl" ∧ rule ≠ "fixed_opaque_decl" ∧
        rule ≠ "var_opaque_decl" ∧ rule ≠ "string_decl" := by
    decide
  obtain ⟨hknown, hvoid, hfixed, hvarying, hstring⟩ := hkinds rule hrule
  rw [buildDeclaration, Tree.rule, if_neg (by simpa using hknown), if_neg hvoid] at hbuild
  obtain ⟨name, -, hbuild⟩ := bind_ok hbuild
  obtain ⟨size, -, hbuild⟩ := bind_ok hbuild
  obtain ⟨ref, href, hbuild⟩ := bind_ok hbuild
  cases hbuild
  rw [buildTypeRef, Tree.rule, if_neg hfixed, if_neg hvarying, if_neg hstring, hoperand,
    ok_bind] at href
  obtain ⟨base, hbase, href⟩ := bind_ok href
  cases href
  exact hbase

lemma declarations_declaration (h : Tree.Node tokens .declaration t)
    (hbuild : buildDeclaration t = .ok d) (hplain : d.ty.base.IsPlain) : t.declarations = [t] := by
  rw [Tree.declarations_declared h.isNode (declaration_rule h)]
  cases h with
  | nothing => rfl
  | @plain rule ty name span known type kind =>
    have hbase := buildDeclaration_typed type.isNode (plain_typed known) hbuild
    simp [Tree.children, declarations_typeSpecifier type hbase hplain]
  | @sized rule ty size name span known type kind value =>
    have hbase := buildDeclaration_typed type.isNode (sized_typed known) hbuild
    simp [Tree.children, declarations_typeSpecifier type hbase hplain, Tree.declarations_value value]
  | bytes => rfl
  | sizedBytes known kind value => simp [Tree.children, Tree.declarations_value value]

lemma buildBase_of_mentionedName (h : Tree.Node tokens .typeSpecifier t)
    (hname : t.mentionedName? = some name) : buildBase t = .ok (.ofName name) := by
  have hwords : ∀ rule ∈ ["name_t", "tagged_ref_t"], inlineKindOfRule? rule = none := by decide
  cases h with
  | builtin => cases hname
  | @inlineBody rule kind children span known =>
    unfold Tree.mentionedName? at hname
    split at hname
    · rename_i heq
      cases heq
      split_ifs at hname with hrule
      rw [hwords rule (by simpa using hrule)] at known
      cases known
    · cases hname
  | @mention rule token span known kind =>
    rw [Token.leaf, Tree.mentionedName?, if_pos (by simpa using known)] at hname
    cases hname
    rw [buildBase_mention known kind, Base.ofName]
    cases Builtin.ofAlias? token.text <;> rfl

lemma base_of_typeName (h : Tree.Node tokens .declaration t) (hbuild : buildDeclaration t = .ok d)
    (hname : t.typeName? = some name) : d.ty.base = .ofName name := by
  have htyped : ∀ {rule : String} {ty : Tree} {rest : List Tree} {span : Option Span},
      Tree.Node tokens .typeSpecifier ty →
      rule ∈ typedRules → ty.mentionedName? = some name →
      buildDeclaration (.node rule (ty :: rest) span) = .ok d → d.ty.base = .ofName name := by
    intro rule ty rest span type hrule hty hbuild
    have hbase := buildDeclaration_typed type.isNode hrule hbuild
    rw [buildBase_of_mentionedName type hty, Except.ok.injEq] at hbase
    exact hbase.symm
  cases h with
  | nothing | bytes | sizedBytes => cases hname
  | plain known type => exact htyped type (plain_typed known) hname hbuild
  | sized known type => exact htyped type (sized_typed known) hname hbuild

def DeclaredAt (tokens : List Token) (t : Tree) (d : Declaration) : Prop :=
  Tree.Node tokens .declaration t ∧ buildDeclaration t = .ok d

lemma mapM_eq_ok_iff {ε α β : Type} {f : α → Except ε β} {xs : List α} {ys : List β} :
    xs.mapM f = .ok ys ↔ List.Forall₂ (fun x y => f x = .ok y) xs ys := by
  induction xs generalizing ys with
  | nil => simp [pure, Except.pure, eq_comm]
  | cons x xs ih =>
    rw [mapM_cons, forall₂_cons_left_iff]
    constructor
    · intro h
      obtain ⟨y, hy, h⟩ := bind_ok h
      obtain ⟨rest, hrest, h⟩ := bind_ok h
      cases h
      exact ⟨y, rest, hy, ih.1 hrest, rfl⟩
    · rintro ⟨y, rest, hy, hrest, rfl⟩
      rw [hy, ih.2 hrest]
      rfl

lemma declarations_fields {ds : List Declaration}
    (each : ∀ t ∈ ts, Tree.Node tokens .declaration t)
    (hbuild : List.Forall₂ (fun t d => buildDeclaration t = .ok d) ts ds)
    (hplain : ∀ d ∈ ds, d.ty.base.IsPlain) :
    List.Forall₂ (DeclaredAt tokens) (ts.flatMap Tree.declarations) ds := by
  induction hbuild with
  | nil => exact .nil
  | @cons t d ts ds hd _ ih =>
    have ht := each t (.head _)
    rw [flatMap_cons, declarations_declaration ht hd (hplain d (.head _))]
    exact .cons ⟨ht, hd⟩ (ih (fun t ht => each t (.tail _ ht))
      fun d hd => hplain d (.tail _ hd))

lemma buildInnerDeclaration_head (h : Tree.Node tokens .declaration t) (rest : List Tree)
    (rule : String) (span : Option Span) :
    buildInnerDeclaration (.node rule (t :: rest) span) = buildDeclaration t :=
  buildInnerDeclaration_eq [] rest (forall_mem_nil _) h rule span

lemma flatMap_declarations_eq_nil (h : ∀ t ∈ ts, t.declarations = []) :
    ts.flatMap Tree.declarations = [] :=
  flatMap_eq_nil_iff.2 h

lemma declarations_arm {a : UnionArm} (h : Tree.Node tokens .caseSpec t)
    (hbuild : buildArm t = .ok a) (hplain : a.decl.ty.base.IsPlain) :
    ∃ x, t.declarations = [x] ∧ DeclaredAt tokens x a.decl := by
  cases h with
  | @arm labels declaration span some each decl =>
    obtain ⟨values, -, hbuild⟩ := bind_ok hbuild
    obtain ⟨d, hd, hbuild⟩ := bind_ok hbuild
    cases hbuild
    have hlabels : ∀ x ∈ labels, x.isNodeIn declarationRuleNames = false := by
      intro x hx
      cases each x hx
      rfl
    rw [buildInnerDeclaration_eq labels [] hlabels decl] at hd
    refine ⟨declaration, ?_, decl, hd⟩
    rw [Tree.declarations_node (by decide), flatMap_append,
      flatMap_declarations_eq_nil fun x hx => Tree.declarations_label (each x hx)]
    simp [declarations_declaration decl hd hplain]

lemma declarations_arms {arms : List UnionArm} (each : ∀ t ∈ ts, Tree.Node tokens .caseSpec t)
    (hbuild : List.Forall₂ (fun t a => buildArm t = .ok a) ts arms)
    (hplain : ∀ a ∈ arms, a.decl.ty.base.IsPlain) :
    List.Forall₂ (DeclaredAt tokens) (ts.flatMap Tree.declarations) (arms.map (·.decl)) := by
  induction hbuild with
  | nil => exact .nil
  | @cons t a ts arms ha _ ih =>
    obtain ⟨x, hx, hdeclared⟩ :=
      declarations_arm (each t (.head _)) ha (hplain a (.head _))
    rw [flatMap_cons, hx]
    exact .cons hdeclared (ih (fun t ht => each t (.tail _ ht))
      fun a ha => hplain a (.tail _ ha))

lemma declarations_union {name : Token} {declaration : Tree} {arms : List Tree}
    {fallback : Option Tree} {inner outer : Option Span}
    (decl : Tree.Node tokens .declaration declaration)
    (each : ∀ a ∈ arms, Tree.Node tokens .caseSpec a)
    (rest : ∀ f ∈ fallback, Tree.Node tokens .defaultSpec f)
    (hbuild : buildUnion (.node "union_def" [name.leaf,
      .node "union_body" (declaration :: (arms ++ fallback.toList)) inner] outer) = .ok definition)
    (hplain : ∀ d ∈ definition.declarations, d.ty.base.IsPlain) :
    List.Forall₂ (DeclaredAt tokens)
      ((declaration :: (arms ++ fallback.toList)).flatMap Tree.declarations)
      definition.declarations := by
  obtain ⟨_, -, hbuild⟩ := bind_ok hbuild
  obtain ⟨body, hbody, hbuild⟩ := bind_ok hbuild
  cases hbody
  obtain ⟨disc, hdisc, hbuild⟩ := bind_ok hbuild
  obtain ⟨as, has, hbuild⟩ := bind_ok hbuild
  obtain ⟨f, hf, hbuild⟩ := bind_ok hbuild
  cases hbuild
  rw [buildInnerDeclaration_head decl] at hdisc
  rw [unionBody_arms decl each rest, mapM_eq_ok_iff] at has
  rw [buildFallback, unionBody_fallback decl each rest] at hf
  simp only [Definition.declarations, cons_append, forall_mem_cons, forall_mem_append,
    forall_mem_map] at hplain ⊢
  obtain ⟨hdiscPlain, harmsPlain, hfPlain⟩ := hplain
  rw [flatMap_cons, flatMap_append,
    declarations_declaration decl hdisc hdiscPlain, singleton_append]
  refine .cons ⟨decl, hdisc⟩ (rel_append (declarations_arms each has harmsPlain) ?_)
  cases fallback with
  | none =>
    cases hf
    exact .nil
  | some node =>
    cases rest node rfl with
    | @fallback declaration span decl =>
      dsimp only at hf
      rw [buildInnerDeclaration_head decl] at hf
      cases hd : buildDeclaration declaration with
      | error e =>
        rw [hd] at hf
        cases hf
      | ok d =>
        rw [hd] at hf
        cases hf
        have hsingle := declarations_declaration decl hd (hfPlain d (by simp))
        simpa [Tree.declarations_node (show "default_spec" ∉ declarationRuleNames by decide), hsingle]
          using ⟨decl, hd⟩

lemma declarations_definition (h : Tree.Node tokens .definition t)
    (hbuild : buildDefinition t = .ok definition)
    (hplain : ∀ d ∈ definition.declarations, d.ty.base.IsPlain) :
    List.Forall₂ (DeclaredAt tokens) t.declarations definition.declarations := by
  cases h with
  | @const name value span kind number =>
    obtain ⟨_, -, hbuild⟩ := bind_ok hbuild
    obtain ⟨_, -, hbuild⟩ := bind_ok hbuild
    obtain ⟨_, -, hbuild⟩ := bind_ok hbuild
    cases hbuild
    rw [Tree.declarations_node (by decide)]
    simp [Tree.declarations_value number, Definition.declarations]
  | @typedef declaration span decl =>
    obtain ⟨x, hx, hrest⟩ := bind_ok hbuild
    rw [show (Tree.node "typedef_def" [declaration] span).operand = .ok declaration from
      operand_eq [] [] (forall_mem_nil _) decl.isNode "typedef_def" span] at hx
    cases hx
    obtain ⟨d, hd, hrest⟩ := bind_ok hrest
    cases hname : d.name with
    | none =>
      rw [hname] at hrest
      cases hrest
    | some name =>
      rw [hname] at hrest
      cases hrest
      rw [Tree.declarations_node (by decide)]
      exact declarations_fields (by simpa using decl) (.cons hd .nil) hplain
  | @enum name body span kind inner =>
    cases inner with
    | @enumBody variants bodySpan each =>
      obtain ⟨_, -, hbuild⟩ := bind_ok hbuild
      obtain ⟨_, -, hbuild⟩ := bind_ok hbuild
      obtain ⟨_, -, hbuild⟩ := bind_ok hbuild
      cases hbuild
      have hvariants := flatMap_declarations_eq_nil fun v hv => Tree.declarations_variant (each v hv)
      rw [Tree.declarations_node (by decide)]
      simp [Tree.declarations_node (show "enum_body" ∉ declarationRuleNames by decide), hvariants,
        Definition.declarations]
  | @struct name body span kind inner =>
    cases inner with
    | @structBody fields bodySpan some each =>
      obtain ⟨_, -, hbuild⟩ := bind_ok hbuild
      obtain ⟨body, hbody, hbuild⟩ := bind_ok hbuild
      cases hbody
      obtain ⟨fs, hfs, hbuild⟩ := bind_ok hbuild
      cases hbuild
      have hnodes : fields.filter Tree.isNode = fields :=
        filter_eq_self.2 fun f hf => (each f hf).isNode
      rw [Tree.children, hnodes, mapM_eq_ok_iff] at hfs
      rw [Tree.declarations_node (by decide), flatMap_cons, flatMap_singleton,
        Tree.declarations_leaf, nil_append, Tree.declarations_node (by decide)]
      exact declarations_fields each hfs hplain
  | @union name body span kind inner =>
    cases inner with
    | @unionBody declaration arms fallback bodySpan decl each rest =>
      rw [Tree.declarations_node (by decide), flatMap_cons, flatMap_singleton,
        Tree.declarations_leaf, nil_append, Tree.declarations_node (by decide)]
      exact declarations_union decl each rest hbuild hplain

lemma declarations_definitions {definitions : List Definition}
    (each : ∀ t ∈ ts, Tree.Node tokens .definition t) {seen : List (String × Option Span)}
    (hbuild : buildDefinitions seen ts = .ok definitions)
    (hplain : ∀ d ∈ definitions.flatMap Definition.declarations, d.ty.base.IsPlain) :
    List.Forall₂ (DeclaredAt tokens) (ts.flatMap Tree.declarations)
      (definitions.flatMap Definition.declarations) := by
  induction ts generalizing seen definitions with
  | nil =>
    cases hbuild
    exact .nil
  | cons t ts ih =>
    obtain ⟨d, hd, hbuild⟩ := bind_ok hbuild
    cases hseen : seen.lookup d.name with
    | some previous =>
      rw [hseen] at hbuild
      cases hbuild
    | none =>
      rw [hseen] at hbuild
      obtain ⟨ds, hds, hbuild⟩ := bind_ok hbuild
      cases hbuild
      rw [flatMap_cons, forall_mem_append] at hplain
      rw [flatMap_cons, flatMap_cons]
      exact rel_append (declarations_definition (each t (.head _)) hd hplain.1)
        (ih (fun t ht => each t (.tail _ ht)) hds hplain.2)

lemma declarations_specification {spec : Specification} (h : Tree.Node tokens .specification t)
    (hbuild : build t = .ok spec)
    (hplain : ∀ d ∈ spec.definitions.flatMap Definition.declarations, d.ty.base.IsPlain) :
    List.Forall₂ (DeclaredAt tokens) t.declarations
      (spec.definitions.flatMap Definition.declarations) := by
  cases h with
  | @specification definitions span each =>
    obtain ⟨ds, hds, hbuild⟩ := bind_ok hbuild
    cases hbuild
    have hnodes : definitions.filter Tree.isNode = definitions :=
      filter_eq_self.2 fun d hd => (each d hd).isNode
    rw [hnodes] at hds
    rw [Tree.declarations_node (by decide)]
    exact declarations_definitions each hds hplain

end Ast

lemma Ast.Definition.declarations_of_not_isType {d : Ast.Definition} (h : d.kind.isType = false) :
    d.declarations = [] := by
  cases d with
  | const => rfl
  | _ => cases h

lemma forall₂_trans_mem {α β γ : Type} {R : α → β → Prop} {S : β → γ → Prop} {xs : List α}
    {ys : List β} {zs : List γ} (hxy : List.Forall₂ R xs ys) (hyz : List.Forall₂ S ys zs) :
    List.Forall₂ (fun x z => ∃ y, R x y ∧ S y z ∧ z ∈ zs) xs zs := by
  induction hxy generalizing zs with
  | nil =>
    cases hyz
    exact .nil
  | @cons x y xs ys hx _ ih =>
    cases hyz with
    | @cons _ z _ zs hy hrest =>
      refine .cons ⟨y, hx, hy, .head _⟩ ((ih hrest).imp ?_)
      rintro x z ⟨y, hx, hy, hz⟩
      exact ⟨y, hx, hy, .tail _ hz⟩

namespace Elaborated

variable {spec : Specification} {defs : Definitions} (h : Elaborated spec defs)
include h

lemma resolved_declarations :
    List.Forall₂ (ResolvesDecl spec) (spec.definitions.flatMap Ast.Definition.declarations)
      (defs.flatMap Definition.members) := by
  have htypes : ∀ ds : List Ast.Definition, ds.flatMap Ast.Definition.declarations =
      (ds.filter (·.kind.isType)).flatMap Ast.Definition.declarations := by
    intro ds
    induction ds with
    | nil => rfl
    | cons d ds ih =>
      cases htype : d.kind.isType with
      | true => simp [htype, ih]
      | false => simp [htype, ih, Ast.Definition.declarations_of_not_isType htype]
  rw [htypes]
  exact rel_flatMap h.resolves fun _ _ hres => hres.members

lemma isPlain_declarations {d : Ast.Declaration}
    (hd : d ∈ spec.definitions.flatMap Ast.Definition.declarations) : d.ty.base.IsPlain := by
  obtain ⟨r, -, hres⟩ := exists_of_forall₂_left h.resolved_declarations hd
  rw [hres.base]
  cases r.base <;> trivial

end Elaborated

/-- What a type name stands for where it is written: the C spelling of an integer type for that type,
and any other name for the type that the specification defines under it, from which the size and the
canonical shape are taken. -/
structure NameMeans (spec : Specification) (s : Schema) (name : String) (base : Base) : Prop where
  builtin : ∀ b, Builtin.ofAlias? name = some b → base = .builtin b
  defined : Builtin.ofAlias? name = none → base = .named name ∧
    ∃ d ∈ spec.definitions, ∃ t, d.name = name ∧ s.find? name = some t ∧
      Resolves spec d t.definition ∧ s.sizeOf (.scalar base) = t.size ∧
      s.canonical (.scalar base) = t.canonical

lemma Elaborated.nameMeans {spec : Specification} {defs : Definitions} (h : Elaborated spec defs)
    {constants : List (String × Int)} {order : List String} {d : Definition} (hd : d ∈ defs)
    {m : Decl} (hm : m ∈ d.members) (hbase : m.base.written = .ofName name) :
    NameMeans spec (defs.schema constants defs.graph order) name m.base := by
  constructor
  · intro b hb
    rw [Ast.Base.ofName, hb] at hbase
    exact Base.written_injective (b := .builtin b) hbase
  · intro hnone
    rw [Ast.Base.ofName, hnone] at hbase
    have hnamed : m.base = .named name := Base.written_injective (b := .named name) hbase
    obtain ⟨r, hr⟩ := h.exists_defined hd hm hnamed
    obtain ⟨w, hw, hname, hres⟩ := h.find?_written hr
    have hfind : (defs.schema constants defs.graph order).find? name = some (defs.info order r) := by
      rw [Definitions.schema_find?, hr, Option.map_some]
    refine ⟨hnamed, w, hw, _, hname, hfind, hres, ?_, ?_⟩
    · simp [hnamed, Schema.sizeOf, Shape.scalar, Shape.sizeWith_eq, Base.isBytes, hfind]
    · simp [hnamed, Schema.canonical, Shape.scalar, hfind]

/-- A type name means its definition, save for the C spellings. The declarations of an accepted text
are resolved one for one and in order, and where the type of one is written as a name, plain or behind
`enum`, `struct` or `union`, it has the type that the specification defines under that name, wherever
its definition stands; the spellings `int32_t`, `uint32_t`, `int64_t` and `uint64_t` stand for the
builtin types, also where the specification defines them. -/
theorem type_name_means_definition {filename source : String} {accepted : Accepted}
    (h : (compile filename source).outcome = .ok accepted) :
    ∃ tree spec, Tree.parse source = .ok tree ∧ Ast.build tree = .ok spec ∧
      List.Forall₂
        (fun node decl => ∀ name, node.typeName? = some name →
          NameMeans spec accepted.schema name decl.base)
        tree.declarations (accepted.schema.definitions.flatMap Definition.members) := by
  obtain ⟨tokens, tree, spec, hparse, hnode, hbuild, -, hschema⟩ := exists_built_of_compile h
  obtain ⟨-, order, hmade, -, hs⟩ := schema_of_analyze hschema
  refine ⟨tree, spec, hparse, hbuild, ?_⟩
  have hbuilt := Ast.declarations_specification hnode hbuild fun d hd =>
    hmade.isPlain_declarations hd
  rw [hs, Definitions.schema_definitions]
  have hboth := forall₂_trans_mem hbuilt hmade.resolved_declarations
  refine hboth.imp fun node decl ⟨d, hdeclared, hres, hmem⟩ name hname => ?_
  obtain ⟨r, hr, hm⟩ := mem_flatMap.1 hmem
  refine hmade.nameMeans hr hm ?_
  rw [← hres.base]
  exact Ast.base_of_typeName hdeclared.1 hdeclared.2 hname

def eventText : String :=
  "struct event { tick at; struct place where; int32_t count; }; typedef hyper tick;" ++
    "struct place { hyper x; }; typedef double int32_t;"

theorem type_name_means_definition_event :
    ∃ accepted, (compile "event.x" eventText).outcome = .ok accepted ∧
      (∃ t ∈ accepted.schema.types, t.name = "int32_t") ∧
      ∃ tick place count rest, accepted.schema.definitions.flatMap Definition.members =
        tick :: place :: count :: rest ∧ tick.base = .named "tick" ∧ place.base = .named "place" ∧
        count.base = .builtin .int := by
  have hknown : (fun c : Compilation => (c.tree.map fun t => t.declarations.map Tree.typeName?,
      c.outcome.toOption.map fun a => a.schema.types.map (·.name))) (compile "event.x" eventText) =
        (some [some "tick", some "place", some "int32_t", none, none, none],
          some ["event", "tick", "place", "int32_t"]) := by
    decide +kernel
  obtain ⟨hnames, htypes⟩ := Prod.mk.inj hknown
  obtain ⟨accepted, houtcome, htypes⟩ := exists_ok_of_toOption htypes
  have hdefined : "int32_t" ∈ accepted.schema.types.map (·.name) := by
    simp [htypes]
  obtain ⟨tree, spec, hparse, -, hmeans⟩ := type_name_means_definition houtcome
  rw [compile_tree hparse] at hnames
  rw [← forall₂_map_left_iff (f := Tree.typeName?)
    (R := fun name? (decl : Decl) => ∀ name, name? = some name →
      NameMeans spec accepted.schema name decl.base),
    show tree.declarations.map Tree.typeName? = _ from Option.some.inj hnames] at hmeans
  obtain ⟨tick, front, htick, hmeans', hmembers⟩ := forall₂_cons_left_iff.1 hmeans
  obtain ⟨place, back, hplace, hmeans'', rfl⟩ := forall₂_cons_left_iff.1 hmeans'
  obtain ⟨count, rest, hcount, -, rfl⟩ := forall₂_cons_left_iff.1 hmeans''
  exact ⟨accepted, houtcome, mem_map.1 hdefined, tick, place, count, rest, hmembers,
    ((htick _ rfl).defined rfl).1, ((hplace _ rfl).defined rfl).1, (hcount _ rfl).builtin .int rfl⟩

end Xdr
