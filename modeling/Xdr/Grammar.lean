import Xdr.Token

/-!
# The grammar

The productions of the interface language. Repetitions are spelled with left-recursive helpers and
options with two alternatives.
-/

namespace Xdr

inductive Nonterminal
  | start | specification | definition | constDef | typedefDef | enumDef | structDef | unionDef
  | enumBody | enumVariant | structBody | unionBody | caseSpec | caseLabel | defaultSpec
  | declaration | typeSpecifier | value
  | definitions | moreVariants | fields | caseSpecs | caseLabels
deriving DecidableEq

inductive Symbol
  | terminal (t : Terminal)
  | nonterminal (n : Nonterminal)
deriving DecidableEq

structure Production where
  lhs : Nonterminal
  rhs : List Symbol
  label : Option String
deriving DecidableEq

namespace Grammar

def rule (lhs : Nonterminal) (label : String) (rhs : List Symbol) : Production :=
  ⟨lhs, rhs, some label⟩

def pass (lhs : Nonterminal) (rhs : List Symbol) : Production := ⟨lhs, rhs, none⟩

def repeated (helper : Nonterminal) (item : List Symbol) : List Production :=
  [pass helper item, pass helper (.nonterminal helper :: item)]

section Rules

open Terminal Nonterminal

private abbrev t (x : Terminal) : Symbol := .terminal x

private abbrev n (x : Nonterminal) : Symbol := .nonterminal x

def definitionRules : List Production :=
  [pass definition [n constDef], pass definition [n typedefDef], pass definition [n enumDef],
   pass definition [n structDef], pass definition [n unionDef],
   rule constDef "const_def" [t constKw, t name, t equal, n value, t semicolon],
   rule typedefDef "typedef_def" [t typedefKw, n declaration, t semicolon],
   rule enumDef "enum_def" [t enumKw, t name, n enumBody, t semicolon],
   rule structDef "struct_def" [t structKw, t name, n structBody, t semicolon],
   rule unionDef "union_def" [t unionKw, t name, n unionBody, t semicolon]]

def bodyRules : List Production :=
  [rule enumBody "enum_body" [t lbrace, n enumVariant, t rbrace],
   rule enumBody "enum_body" [t lbrace, n enumVariant, n moreVariants, t rbrace]] ++
  repeated moreVariants [t comma, n enumVariant] ++
  [rule enumVariant "enum_variant" [t name, t equal, n value],
   rule structBody "struct_body" [t lbrace, n fields, t rbrace]] ++
  repeated fields [n declaration, t semicolon] ++
  [rule unionBody "union_body"
     [t switchKw, t lpar, n declaration, t rpar, t lbrace, n caseSpecs, t rbrace],
   rule unionBody "union_body"
     [t switchKw, t lpar, n declaration, t rpar, t lbrace, n caseSpecs, n defaultSpec, t rbrace]] ++
  repeated caseSpecs [n caseSpec] ++
  [rule caseSpec "case_spec" [n caseLabels, n declaration, t semicolon]] ++
  repeated caseLabels [n caseLabel] ++
  [rule caseLabel "case_label" [t caseKw, n value, t colon],
   rule defaultSpec "default_spec" [t defaultKw, t colon, n declaration, t semicolon]]

def declarationRules : List Production :=
  [rule declaration "scalar_decl" [n typeSpecifier, t name],
   rule declaration "fixed_array_decl" [n typeSpecifier, t name, t lsqb, n value, t rsqb],
   rule declaration "var_array_decl" [n typeSpecifier, t name, t lessthan, t morethan],
   rule declaration "var_array_decl" [n typeSpecifier, t name, t lessthan, n value, t morethan],
   rule declaration "fixed_opaque_decl" [t opaqueKw, t name, t lsqb, n value, t rsqb],
   rule declaration "var_opaque_decl" [t opaqueKw, t name, t lessthan, t morethan],
   rule declaration "var_opaque_decl" [t opaqueKw, t name, t lessthan, n value, t morethan],
   rule declaration "string_decl" [t stringKw, t name, t lessthan, t morethan],
   rule declaration "string_decl" [t stringKw, t name, t lessthan, n value, t morethan],
   rule declaration "optional_decl" [n typeSpecifier, t star, t name],
   rule declaration "void_decl" [t voidKw]]

def specifierRules : List Production :=
  [rule typeSpecifier "unsigned_int_t" [t unsignedKw, t intKw],
   rule typeSpecifier "unsigned_hyper_t" [t unsignedKw, t hyperKw],
   rule typeSpecifier "unsigned_int_t" [t unsignedKw],
   rule typeSpecifier "int_t" [t intKw],
   rule typeSpecifier "hyper_t" [t hyperKw],
   rule typeSpecifier "float_t" [t floatKw],
   rule typeSpecifier "double_t" [t doubleKw],
   rule typeSpecifier "quadruple_t" [t quadrupleKw],
   rule typeSpecifier "bool_t" [t boolKw],
   rule typeSpecifier "inline_enum_t" [t enumKw, n enumBody],
   rule typeSpecifier "inline_struct_t" [t structKw, n structBody],
   rule typeSpecifier "inline_union_t" [t unionKw, n unionBody],
   rule typeSpecifier "tagged_ref_t" [t enumKw, t name],
   rule typeSpecifier "tagged_ref_t" [t structKw, t name],
   rule typeSpecifier "tagged_ref_t" [t unionKw, t name],
   rule typeSpecifier "name_t" [t name],
   rule value "literal" [t number],
   rule value "reference" [t name]]

def productions : Array Production :=
  ([pass start [n specification],
    rule specification "specification" [],
    rule specification "specification" [n definitions]] ++
   repeated definitions [n definition] ++
   definitionRules ++ bodyRules ++ declarationRules ++ specifierRules).toArray

end Rules

def rulesOf (n : Nonterminal) : List Nat :=
  (List.range productions.size).filter fun i => (productions[i]?.map (·.lhs)) = some n

mutual

inductive Derives : Symbol → List Terminal → Prop
  | terminal (t : Terminal) : Derives (.terminal t) [t]
  | rule (p : Production) (w : List Terminal) (member : p ∈ productions) :
      DerivesAll p.rhs w → Derives (.nonterminal p.lhs) w

/-- `DerivesAll ss w`: the symbols `ss` stand, one after the other, for the terminals `w`. -/
inductive DerivesAll : List Symbol → List Terminal → Prop
  | nil : DerivesAll [] []
  | cons (s : Symbol) (ss : List Symbol) (u v : List Terminal) :
      Derives s u → DerivesAll ss v → DerivesAll (s :: ss) (u ++ v)

end

def IsSpecification (w : List Terminal) : Prop := Derives (.nonterminal .specification) w

def IsViable (w : List Terminal) : Prop := ∃ rest, IsSpecification (w ++ rest)

end Grammar

end Xdr
