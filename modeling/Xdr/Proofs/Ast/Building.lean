import Xdr.Proofs.Ast.Shapes
import Xdr.Proofs.Number.Numerals

/-!
# Building definitions from the tree of a text

The builder takes any tree.
-/

namespace Xdr.Ast

open List

open Lexer (IsLexeme)

open Xdr.Tree (isNodeIn node operand)

variable {t : Tree} {rule : String} {α β : Type} {P : α → Prop} {x : Build α} {b : Builtin}

section

variable (tokens : List Token)

/-- A token has this text and this span. -/
def Placed (text : String) (span : Option Span) : Prop :=
  ∃ t ∈ tokens, t.text = text ∧ span = some t.span

def Value.Written : Value → Prop
  | literal loc v text => ∃ t ∈ tokens, t.kind = .number ∧ t.text = text ∧
      v.natAbs = Number.sizeOfLiteral text ∧ loc = some t.span
  | reference loc name => Placed tokens name loc

structure Declaration.Written (d : Declaration) : Prop where
  named : d.name = none → d.ty.base = .builtin .void
  fixed : d.ty.arity = .fixed → d.ty.size ≠ none
  bytes : ∀ b, d.ty.base = .builtin b → b.isBytes = true → d.ty.arity = .fixed ∨ d.ty.arity = .varying
  size : ∀ x ∈ d.ty.size, x.Written tokens
  placed : (d.name = none ∧ d.nameSpan = none) ∨
    ∃ name, d.name = some name ∧ Placed tokens name d.nameSpan

structure UnionArm.Written (a : UnionArm) : Prop where
  labelled : a.labels ≠ []
  labels : ∀ x ∈ a.labels, x.Written tokens
  decl : a.decl.Written tokens

def Definition.Written : Definition → Prop
  | const d => d.value.Written tokens
  | enum d => ∀ v ∈ d.variants, v.value.Written tokens ∧ Placed tokens v.name v.nameSpan
  | struct d => d.fields ≠ [] ∧ ∀ f ∈ d.fields, f.Written tokens
  | typedef d => d.decl.Written tokens
  | union d => d.discriminant.Written tokens ∧ (∀ a ∈ d.arms, a.Written tokens) ∧
      ∀ f ∈ d.fallback, f.Written tokens

def BuildFault.Foreseen (f : BuildFault) : Prop :=
  match f.cause with
  | .octal _ => True
  | .duplicate _ _ => True
  | .misplacedVoid => True
  | .unreadable literal => ∃ t ∈ tokens, t.kind = .number ∧ t.text = literal ∧
      10 ^ Number.maxDecimalDigits ≤ Number.sizeOfLiteral literal
  | .defect _ => False
  | .notASpecification => False

def Ends {α : Type} (P : α → Prop) : Build α → Prop
  | .ok a => P a
  | .error f => f.Foreseen tokens

end

variable {tokens : List Token}

lemma ok_bind (a : α) (f : α → Build β) : (Except.ok a >>= f) = f a := rfl

lemma Ends.bind {Q : β → Prop} {f : α → Build β} (hx : Ends tokens P x)
    (hf : ∀ a, P a → Ends tokens Q (f a)) : Ends tokens Q (x >>= f) := by
  cases x with
  | error e => exact hx
  | ok a => exact hf a hx

lemma Ends.mono {Q : α → Prop} (hx : Ends tokens P x) (h : ∀ a, P a → Q a) : Ends tokens Q x := by
  cases x with
  | error e => exact hx
  | ok a => exact h a hx

lemma Ends.map (hx : Ends tokens P x) (f : α → β) :
    Ends tokens (fun b => ∃ a, f a = b ∧ P a) (x.map f) := by
  cases x with
  | error e => exact hx
  | ok a => exact ⟨a, rfl, hx⟩

lemma Ends.mapM {Q : β → Prop} {f : α → Build β} {xs : List α} (h : ∀ x ∈ xs, Ends tokens Q (f x)) :
    Ends tokens (fun ys => (∀ y ∈ ys, Q y) ∧ ys.length = xs.length) (xs.mapM f) := by
  induction xs with
  | nil => exact ⟨by simp, rfl⟩
  | cons x xs ih =>
    rw [mapM_cons]
    refine (h x (.head _)).bind fun y hy => ?_
    refine (ih fun z hz => h z (.tail x hz)).bind fun ys hys => ?_
    exact ⟨by simpa using ⟨hy, hys.1⟩, by simpa using hys.2⟩

lemma requiredName_eq {t : Token} (kind : t.kind = .name) (front rest : List Tree)
    (hfront : ∀ x ∈ front, x.isNode) (rule : String) (span : Option Span) :
    (node rule (front ++ t.leaf :: rest) span).requiredName = .ok (t.text, some t.span) := by
  have hskip : front.findSome? Tree.asName? = none := by
    rw [findSome?_eq_none_iff]
    intro x hx
    cases x with
    | leaf => cases hfront _ hx
    | node => rfl
  have hname : t.leaf.asName? = some (t.text, some t.span) := by
    rw [Token.leaf, kind]
    rfl
  simp only [Tree.requiredName, Tree.firstName?, Tree.children, findSome?_append, hskip,
    Option.none_or, findSome?_cons, hname]

lemma operand_eq (front rest : List Tree) (hfront : ∀ x ∈ front, x.isNode = false)
    (ht : t.isNode) (rule : String) (span : Option Span) :
    (node rule (front ++ t :: rest) span).operand = .ok t := by
  rw [operand, Tree.children, find?_append,
    find?_eq_none.2 (fun x hx => by simp [hfront x hx]), Option.none_or,
    find?_cons_of_pos ht]

lemma isNodeIn_eq (h : t.isNode) (rules : List String) :
    t.isNodeIn rules = rules.contains t.rule := by
  cases t with
  | leaf => cases h
  | node => rfl

lemma declaration_rule (h : Tree.Node tokens .declaration t) : t.rule ∈ declarationRuleNames := by
  cases h with
  | nothing => simp [Tree.rule, declarationRuleNames]
  | plain known | sized known | bytes known | sizedBytes known =>
    simp only [mem_cons, not_mem_nil, or_false] at known
    rcases known with rfl | rfl | rfl <;> simp [Tree.rule, declarationRuleNames]

lemma declaration_isNodeIn (h : Tree.Node tokens .declaration t)
    (hrule : rule ∉ declarationRuleNames) : t.isNodeIn [rule] = false := by
  rw [isNodeIn_eq h.isNode]
  simp only [contains_cons, contains_nil, Bool.or_false, beq_eq_false_iff_ne]
  rintro rfl
  exact hrule (declaration_rule h)

def Base.Nameable : Base → Prop
  | builtin b => b.isBytes = false ∧ b ≠ .void
  | _ => True

lemma nameable_of_rule (h : builtinOfRule? rule = some b) : (Base.builtin b).Nameable := by
  obtain ⟨front, rest, hlist, -⟩ := lookup_eq_some_iff.1 h
  have hmem : ∀ p ∈ front ++ (rule, b) :: rest, (Base.builtin p.2).Nameable := by
    rw [← hlist]
    simp [Base.Nameable, Builtin.isBytes]
  exact hmem (rule, b) (by simp)

lemma nameable_of_alias {name : String} (h : Builtin.ofAlias? name = some b) :
    (Base.builtin b).Nameable := by
  unfold Builtin.ofAlias? at h
  split_ifs at h <;> cases h <;> exact ⟨rfl, by decide⟩

lemma buildBase_mention {t : Token} {span : Option Span}
    (known : rule ∈ ["name_t", "tagged_ref_t"]) (kind : t.kind = .name) :
    buildBase (.node rule [t.leaf] span) =
      match Builtin.ofAlias? t.text with
      | some b => .ok (.builtin b)
      | none => .ok (.named t.text) := by
  have hname : (node rule [t.leaf] span).requiredName = .ok (t.text, some t.span) :=
    requiredName_eq kind [] [] (forall_mem_nil _) rule span
  simp only [mem_cons, not_mem_nil, or_false] at known
  obtain rfl | rfl := known <;>
  · show (Tree.requiredName _ >>= _) = _
    rw [hname]
    rfl

lemma buildBase_ends (h : Tree.Node tokens .typeSpecifier t) :
    Ends tokens Base.Nameable (buildBase t) := by
  cases h with
  | @builtin rule b span known =>
    simp only [buildBase, Tree.rule, known]
    exact nameable_of_rule known
  | @inlineBody rule kind children span known =>
    simp only [buildBase, Tree.rule, known]
    cases hrule : builtinOfRule? rule with
    | some b => exact nameable_of_rule hrule
    | none => exact trivial
  | @mention rule t span known kind =>
    rw [buildBase_mention known kind]
    cases halias : Builtin.ofAlias? t.text with
    | some b => exact nameable_of_alias halias
    | none => exact trivial

section

variable (lexemes : ∀ t ∈ tokens, IsLexeme (.token t.kind) t.text.toList)
include lexemes

omit lexemes in
lemma buildValue_literal (t : Token) (span : Option Span) :
    buildValue (.node "literal" [t.leaf] span) =
      match Number.parseLiteral t.text with
      | .ok value => .ok (.literal (some t.span) value t.text)
      | .error .octalDigit => .error ⟨.octal t.text, some t.span⟩
      | .error .malformed => .error ⟨.unreadable t.text, some t.span⟩ :=
  rfl

lemma buildValue_ends (h : Tree.Node tokens .value t) :
    Ends tokens (Value.Written tokens) (buildValue t) := by
  cases h with
  | reference kind mem => exact ⟨_, mem, rfl, rfl⟩
  | @literal t span mem kind =>
    rw [buildValue_literal]
    obtain ⟨v, hok, hsize⟩ | hoctal | ⟨hlong, hsize⟩ :=
      Number.parseLiteral_cases (kind ▸ lexemes t mem)
    · rw [hok]
      exact ⟨t, mem, kind, rfl, hsize, rfl⟩
    · rw [hoctal]
      exact trivial
    · rw [hlong]
      exact ⟨t, mem, kind, rfl, hsize⟩

lemma buildSize_ends (front : List Tree) {size : Tree}
    (hfront : ∀ x ∈ front, x.isNodeIn ["literal", "reference"] = false)
    (h : Tree.Node tokens .value size) (rule : String) (span : Option Span) :
    Ends tokens (fun x => x ≠ none ∧ ∀ v ∈ x, v.Written tokens)
      (buildSize (.node rule (front ++ [size]) span)) := by
  have hfind : (node rule (front ++ [size]) span).firstIn? ["literal", "reference"] =
      some size := by
    rw [Tree.firstIn?, Tree.children, find?_append,
      find?_eq_none.2 (fun x hx => by simp [hfront x hx])]
    cases h <;> rfl
  rw [buildSize, hfind]
  refine ((buildValue_ends lexemes h).map some).mono ?_
  rintro _ ⟨v, rfl, hv⟩
  refine ⟨by simp, fun x hx => ?_⟩
  cases hx
  exact hv

end

lemma buildSize_none (children : List Tree)
    (h : ∀ x ∈ children, x.isNodeIn ["literal", "reference"] = false) (rule : String)
    (span : Option Span) : buildSize (.node rule children span) = .ok none := by
  rw [buildSize, Tree.firstIn?, Tree.children, find?_eq_none.2 (fun x hx => by simp [h x hx])]

lemma typeSpecifier_not_value (h : Tree.Node tokens .typeSpecifier t) :
    t.isNodeIn ["literal", "reference"] = false := by
  have hrule : ∀ {rule : String} {children : List Tree} {span : Option Span},
      rule ≠ "literal" → rule ≠ "reference" →
      (node rule children span).isNodeIn ["literal", "reference"] = false := by
    intro rule children span hl hr
    simp [isNodeIn, hl, hr]
  cases h with
  | builtin known | inlineBody known =>
    exact hrule (by rintro rfl; cases known) (by rintro rfl; cases known)
  | mention known => exact hrule (by rintro rfl; simp at known) (by rintro rfl; simp at known)

section

variable {t : Tree} {name : String × Option Span}

lemma buildDeclaration_named (hrule : t.rule ∈ declarationRuleNames)
    (hvoid : t.rule ≠ "void_decl") (hname : t.requiredName = .ok name) :
    buildDeclaration t = (do
      let size ← buildSize t
      let ty ← buildTypeRef t size
      return ⟨t.span?, some name.1, ty, name.2⟩) := by
  rw [buildDeclaration, if_neg (by simpa using hrule), if_neg hvoid, hname]
  rfl

lemma typed_ends (hrule : t.rule ∈ ["scalar_decl", "fixed_array_decl", "var_array_decl",
      "optional_decl"]) (hname : t.requiredName = .ok name)
    (hplaced : Placed tokens name.1 name.2) (ty : Tree)
    (hoperand : t.operand = .ok ty) (htype : Tree.Node tokens .typeSpecifier ty)
    (hsize : Ends tokens (fun x => (t.rule = "fixed_array_decl" → x ≠ none) ∧
      ∀ v ∈ x, v.Written tokens) (buildSize t)) :
    Ends tokens (Declaration.Written tokens) (buildDeclaration t) := by
  simp only [mem_cons, not_mem_nil, or_false] at hrule
  have hfixed : arityOfRule t.rule = .fixed → t.rule = "fixed_array_decl" := by
    obtain hrule | hrule | hrule | hrule := hrule <;> rw [hrule] <;> decide
  have href : ∀ size, buildTypeRef t size = (do
      let base ← buildBase ty
      return ⟨ty.span?, base, arityOfRule t.rule, size⟩) := by
    intro size
    obtain hrule | hrule | hrule | hrule := hrule <;>
      simp only [buildTypeRef, hrule, hoperand, ok_bind] <;> rfl
  rw [buildDeclaration_named (by obtain hrule | hrule | hrule | hrule := hrule <;> rw [hrule] <;> decide)
    (by obtain hrule | hrule | hrule | hrule := hrule <;> rw [hrule] <;> decide) hname]
  refine hsize.bind fun size hsize => ?_
  rw [href, bind_assoc]
  refine (buildBase_ends htype).bind fun base hbase => ?_
  refine ⟨nofun, fun harity => hsize.1 (hfixed harity), fun b hb hbytes => ?_, hsize.2,
    .inr ⟨_, rfl, hplaced⟩⟩
  obtain rfl : base = .builtin b := hb
  rw [hbase.1] at hbytes
  cases hbytes

lemma bytes_ends (hrule : t.rule ∈ ["fixed_opaque_decl", "var_opaque_decl", "string_decl"])
    (hname : t.requiredName = .ok name) (hplaced : Placed tokens name.1 name.2)
    (hsize : Ends tokens (fun x => (t.rule = "fixed_opaque_decl" → x ≠ none) ∧
      ∀ v ∈ x, v.Written tokens) (buildSize t)) :
    Ends tokens (Declaration.Written tokens) (buildDeclaration t) := by
  simp only [mem_cons, not_mem_nil, or_false] at hrule
  have href : ∃ b arity, (arity = .fixed ∧ t.rule = "fixed_opaque_decl" ∨ arity = .varying) ∧
      ∀ size, buildTypeRef t size = .ok ⟨t.span?, .builtin b, arity, size⟩ := by
    obtain hrule | hrule | hrule := hrule
    · exact ⟨.opaqueBytes, .fixed, .inl ⟨rfl, hrule⟩, fun size => by rw [buildTypeRef, hrule]; rfl⟩
    · exact ⟨.opaqueBytes, .varying, .inr rfl, fun size => by rw [buildTypeRef, hrule]; rfl⟩
    · exact ⟨.string, .varying, .inr rfl, fun size => by rw [buildTypeRef, hrule]; rfl⟩
  obtain ⟨b, arity, harity, href⟩ := href
  rw [buildDeclaration_named (by obtain hrule | hrule | hrule := hrule <;> rw [hrule] <;> decide)
    (by obtain hrule | hrule | hrule := hrule <;> rw [hrule] <;> decide) hname]
  refine hsize.bind fun size hsize => ?_
  rw [href]
  refine ⟨nofun, fun hfixed => ?_, fun _ _ _ => ?_, hsize.2, .inr ⟨_, rfl, hplaced⟩⟩
  · obtain ⟨-, hrule⟩ | hvarying := harity
    · exact hsize.1 hrule
    · cases hvarying.symm.trans hfixed
  · exact harity.imp And.left id

end

section

variable (lexemes : ∀ t ∈ tokens, IsLexeme (.token t.kind) t.text.toList)
include lexemes

lemma buildDeclaration_ends (h : Tree.Node tokens .declaration t) :
    Ends tokens (Declaration.Written tokens) (buildDeclaration t) := by
  have hleaf : ∀ t : Token, t.leaf.isNodeIn ["literal", "reference"] = false := fun _ => rfl
  cases h with
  | nothing => exact ⟨fun _ => rfl, by simp, by simp [Builtin.isBytes], by simp, .inl ⟨rfl, rfl⟩⟩
  | @plain rule ty t span known type kind mem =>
    have hname := requiredName_eq kind [ty] [] (by simpa using type.isNode) rule span
    have hnone := buildSize_none [ty, t.leaf]
      (by simpa using ⟨typeSpecifier_not_value type, hleaf t⟩) rule span
    refine typed_ends ?_ hname ⟨t, mem, rfl, rfl⟩ ty ?_ type ?_
    · simp only [mem_cons, not_mem_nil, or_false] at known
      obtain rfl | rfl | rfl := known <;> simp [Tree.rule]
    · simp [operand, Tree.children, type.isNode]
    · show Ends tokens _ (buildSize (.node rule [ty, t.leaf] span))
      rw [hnone]
      refine ⟨fun hrule => ?_, by simp⟩
      rw [Tree.rule] at hrule
      simp [hrule] at known
  | @sized rule ty size t span known type kind value mem =>
    have hname := requiredName_eq kind [ty] [size] (by simpa using type.isNode) rule span
    have hsize := buildSize_ends lexemes [ty, t.leaf]
      (by simpa using ⟨typeSpecifier_not_value type, hleaf t⟩) value rule span
    refine typed_ends ?_ hname ⟨t, mem, rfl, rfl⟩ ty ?_ type ?_
    · simp only [mem_cons, not_mem_nil, or_false] at known
      obtain rfl | rfl := known <;> simp [Tree.rule]
    · simp [operand, Tree.children, type.isNode]
    · exact hsize.mono fun x hx => ⟨fun _ => hx.1, hx.2⟩
  | @bytes rule t span known kind mem =>
    have hname := requiredName_eq kind [] [] (by simp) rule span
    have hnone := buildSize_none [t.leaf] (by simpa using hleaf t) rule span
    refine bytes_ends ?_ hname ⟨t, mem, rfl, rfl⟩ ?_
    · simp only [mem_cons, not_mem_nil, or_false] at known
      obtain rfl | rfl := known <;> simp [Tree.rule]
    · show Ends tokens _ (buildSize (.node rule [t.leaf] span))
      rw [hnone]
      refine ⟨fun hrule => ?_, by simp⟩
      rw [Tree.rule] at hrule
      simp [hrule] at known
  | @sizedBytes rule size t span known kind value mem =>
    have hname := requiredName_eq kind [] [size] (by simp) rule span
    have hsize := buildSize_ends lexemes [t.leaf] (by simpa using hleaf t) value rule span
    exact bytes_ends known hname ⟨t, mem, rfl, rfl⟩
      (hsize.mono fun x hx => ⟨fun _ => hx.1, hx.2⟩)

omit lexemes in
lemma buildInnerDeclaration_eq (front rest : List Tree)
    (hfront : ∀ x ∈ front, x.isNodeIn declarationRuleNames = false)
    (h : Tree.Node tokens .declaration t) (rule : String) (span : Option Span) :
    buildInnerDeclaration (.node rule (front ++ t :: rest) span) = buildDeclaration t := by
  have ht : t.isNodeIn declarationRuleNames := by
    rw [isNodeIn_eq h.isNode]
    exact elem_iff.2 (declaration_rule h)
  rw [buildInnerDeclaration, Tree.firstIn?, Tree.children, find?_append,
    find?_eq_none.2 (fun x hx => by simp [hfront x hx]), Option.none_or,
    find?_cons_of_pos ht]

lemma buildInnerDeclaration_ends (front rest : List Tree)
    (hfront : ∀ x ∈ front, x.isNodeIn declarationRuleNames = false)
    (h : Tree.Node tokens .declaration t) (rule : String) (span : Option Span) :
    Ends tokens (Declaration.Written tokens)
      (buildInnerDeclaration (.node rule (front ++ t :: rest) span)) := by
  rw [buildInnerDeclaration_eq front rest hfront h]
  exact buildDeclaration_ends lexemes h

lemma numbered_ends {t : Token} {value : Tree} (kind : t.kind = .name)
    (number : Tree.Node tokens .value value) (rule : String) (span : Option Span)
    {f : String × Option Span → Value → α}
    (hf : ∀ v, v.Written tokens → P (f (t.text, some t.span) v)) :
    Ends tokens P (do
      let name ← (node rule [t.leaf, value] span).requiredName
      let v ← buildValue (← (node rule [t.leaf, value] span).operand)
      return f name v) := by
  have hname : (node rule [t.leaf, value] span).requiredName = .ok (t.text, some t.span) :=
    requiredName_eq kind [] [value] (forall_mem_nil _) rule span
  have hoperand : (node rule [t.leaf, value] span).operand = .ok value :=
    operand_eq [t.leaf] [] (by simp [Token.leaf, Tree.isNode]) number.isNode rule span
  rw [hname, hoperand]
  exact (buildValue_ends lexemes number).bind hf

lemma buildVariant_ends (h : Tree.Node tokens .enumVariant t) :
    Ends tokens (fun v => v.value.Written tokens ∧ Placed tokens v.name v.nameSpan)
      (buildVariant t) := by
  cases h with
  | @variant t value span kind number mem =>
    exact numbered_ends lexemes kind number "enum_variant" span fun _ hv => ⟨hv, t, mem, rfl, rfl⟩

lemma buildLabel_ends (h : Tree.Node tokens .caseLabel t) :
    Ends tokens (Value.Written tokens) (do buildValue (← t.operand)) := by
  cases h with
  | @label value span number =>
    have hoperand : (node "case_label" [value] span).operand = .ok value :=
      operand_eq [] [] (forall_mem_nil _) number.isNode "case_label" span
    rw [hoperand]
    exact buildValue_ends lexemes number

lemma buildArm_ends (h : Tree.Node tokens .caseSpec t) :
    Ends tokens (UnionArm.Written tokens) (buildArm t) := by
  cases h with
  | @arm labels declaration span some each decl =>
    have hlabel : ∀ x ∈ labels, x.isNodeIn ["case_label"] ∧
        x.isNodeIn declarationRuleNames = false := by
      intro x hx
      cases each x hx with
      | label number => exact ⟨rfl, rfl⟩
    have hdecl := declaration_isNodeIn decl (show "case_label" ∉ declarationRuleNames by decide)
    have hnodes : (node "case_spec" (labels ++ [declaration]) span).nodesNamed "case_label" =
        labels := by
      rw [Tree.nodesNamed, Tree.children, filter_append,
        filter_eq_self.2 fun x hx => (hlabel x hx).1, filter_eq_nil_iff.2 (by simpa using hdecl),
        append_nil]
    rw [buildArm, hnodes]
    refine (Ends.mapM fun x hx => buildLabel_ends lexemes (each x hx)).bind fun values hvalues => ?_
    refine (buildInnerDeclaration_ends lexemes labels [] (fun x hx => (hlabel x hx).2) decl
      "case_spec" span).bind fun d hd => ?_
    refine ⟨fun hnil => some ?_, hvalues.1, hd⟩
    rw [← length_eq_zero_iff, ← hvalues.2]
    exact length_eq_zero_iff.2 hnil

omit lexemes in
lemma bodied_ends {t : Token} {body : Tree} {label : String} (kind : t.kind = .name)
    (hbody : body.isNodeIn [label]) (rule : String) (span : Option Span)
    {f : String × Option Span → Tree → Build α} (hf : Ends tokens P (f (t.text, some t.span) body)) :
    Ends tokens P (do
      let name ← (node rule [t.leaf, body] span).requiredName
      let b ← (node rule [t.leaf, body] span).requiredBody label
      f name b) := by
  have hname : (node rule [t.leaf, body] span).requiredName = .ok (t.text, some t.span) :=
    requiredName_eq kind [] [body] (forall_mem_nil _) rule span
  have hfind : (node rule [t.leaf, body] span).requiredBody label = .ok body := by
    rw [Tree.requiredBody, Tree.firstIn?, Tree.children,
      find?_cons_of_neg (by simp [Token.leaf, isNodeIn]), find?_cons_of_pos hbody]
  rw [hname, hfind]
  exact hf

section

variable {declaration : Tree} {arms : List Tree} {fallback : Option Tree}
  (decl : Tree.Node tokens .declaration declaration)
  (each : ∀ a ∈ arms, Tree.Node tokens .caseSpec a)
  (rest : ∀ f ∈ fallback, Tree.Node tokens .defaultSpec f) (span : Option Span)

include decl each rest

omit lexemes in
lemma unionBody_arms :
    (node "union_body" (declaration :: (arms ++ fallback.toList)) span).nodesNamed "case_spec" =
      arms := by
  have hdecl := declaration_isNodeIn decl (show "case_spec" ∉ declarationRuleNames by decide)
  have harm : ∀ a ∈ arms, a.isNodeIn ["case_spec"] := by
    intro a ha
    cases each a ha
    rfl
  have hrest : ∀ f ∈ fallback.toList, ¬ f.isNodeIn ["case_spec"] := by
    intro f hf
    cases rest f (Option.mem_toList.1 hf)
    simp [isNodeIn]
  rw [Tree.nodesNamed, Tree.children, filter_cons_of_neg (by simp [hdecl]), filter_append,
    filter_eq_self.2 harm, filter_eq_nil_iff.2 hrest, append_nil]

omit lexemes in
lemma unionBody_fallback :
    (node "union_body" (declaration :: (arms ++ fallback.toList)) span).firstIn?
      ["default_spec"] = fallback := by
  have hdecl := declaration_isNodeIn decl (show "default_spec" ∉ declarationRuleNames by decide)
  have harm : ∀ a ∈ arms, ¬ a.isNodeIn ["default_spec"] := by
    intro a ha
    cases each a ha
    simp [isNodeIn]
  rw [Tree.firstIn?, Tree.children, find?_cons_of_neg (by simp [hdecl]), find?_append,
    find?_eq_none.2 harm, Option.none_or]
  cases fallback with
  | none => rfl
  | some f =>
    cases rest f rfl
    rfl

lemma buildUnion_ends {t : Token} (kind : t.kind = .name) (mem : t ∈ tokens)
    (outer : Option Span) :
    Ends tokens (fun d => d.Written tokens ∧ Placed tokens d.name d.nameSpan)
      (buildUnion (.node "union_def"
        [t.leaf, .node "union_body" (declaration :: (arms ++ fallback.toList)) span] outer)) := by
  refine bodied_ends kind rfl "union_def" outer ?_
  rw [unionBody_arms decl each rest, buildFallback, unionBody_fallback decl each rest]
  refine (buildInnerDeclaration_ends lexemes [] (arms ++ fallback.toList) (forall_mem_nil _) decl
    "union_body" span).bind fun disc hdisc => ?_
  refine (Ends.mapM fun a ha => buildArm_ends lexemes (each a ha)).bind fun as has => ?_
  cases fallback with
  | none => exact ⟨⟨hdisc, has.1, fun f hf => nomatch hf⟩, t, mem, rfl, rfl⟩
  | some f =>
    cases rest f rfl with
    | @fallback inner innerSpan hinner =>
      have hbuild := buildInnerDeclaration_ends lexemes [] [] (forall_mem_nil _) hinner
        "default_spec" innerSpan
      refine (hbuild.map some).bind fun f hf => ⟨⟨hdisc, has.1, ?_⟩, t, mem, rfl, rfl⟩
      obtain ⟨d, rfl, hd⟩ := hf
      intro x hx
      cases hx
      exact hd

end

lemma buildDefinition_ends (h : Tree.Node tokens .definition t) :
    Ends tokens (fun d => d.Written tokens ∧ Placed tokens d.name d.nameSpan)
      (buildDefinition t) := by
  cases h with
  | @const t value span kind number mem =>
    exact numbered_ends lexemes kind number "const_def" span fun _ hv => ⟨hv, t, mem, rfl, rfl⟩
  | @typedef declaration span decl =>
    have hoperand : (node "typedef_def" [declaration] span).operand = .ok declaration :=
      operand_eq [] [] (forall_mem_nil _) decl.isNode "typedef_def" span
    show Ends tokens _ (buildTypedef _)
    rw [buildTypedef, hoperand, ok_bind]
    refine (buildDeclaration_ends lexemes decl).bind fun d hd => ?_
    cases hname : d.name with
    | none => exact trivial
    | some name =>
      obtain ⟨hnone, -⟩ | ⟨_, hsome, hplaced⟩ := hd.placed
      · cases hname.symm.trans hnone
      · cases hname.symm.trans hsome
        exact ⟨hd, hplaced⟩
  | @enum t body span kind inner mem =>
    cases inner with
    | @enumBody variants bodySpan each =>
      refine bodied_ends kind rfl "enum_def" span ?_
      refine (Ends.mapM fun v hv => buildVariant_ends lexemes (each v ?_)).bind fun vs hvs =>
        ⟨hvs.1, t, mem, rfl, rfl⟩
      exact (mem_filter.1 hv).1
  | @struct t body span kind inner mem =>
    cases inner with
    | @structBody fields bodySpan some each =>
      have hnodes : fields.filter Tree.isNode = fields :=
        filter_eq_self.2 fun f hf => (each f hf).isNode
      refine bodied_ends kind rfl "struct_def" span ?_
      rw [Tree.children, hnodes]
      refine (Ends.mapM fun f hf => buildDeclaration_ends lexemes (each f hf)).bind fun fs hfs => ?_
      refine ⟨⟨fun hnil => some ?_, hfs.1⟩, t, mem, rfl, rfl⟩
      rw [← length_eq_zero_iff, ← hfs.2]
      exact length_eq_zero_iff.2 hnil
  | @union t body span kind inner mem =>
    cases inner with
    | @unionBody declaration arms fallback bodySpan decl each rest =>
      exact buildUnion_ends lexemes decl each rest bodySpan kind mem span

lemma buildDefinitions_ends {ts : List Tree} (h : ∀ t ∈ ts, Tree.Node tokens .definition t)
    (seen : List (String × Option Span)) :
    Ends tokens (fun ds => ∀ d ∈ ds, d.Written tokens ∧ Placed tokens d.name d.nameSpan)
      (buildDefinitions seen ts) := by
  induction ts generalizing seen with
  | nil => exact forall_mem_nil _
  | cons t ts ih =>
    refine (buildDefinition_ends lexemes (h t (.head _))).bind fun d hd => ?_
    cases seen.lookup d.name with
    | some previous => exact trivial
    | none =>
      refine (ih (fun x hx => h x (.tail t hx)) _).bind fun ds hds => ?_
      exact forall_mem_cons.2 ⟨hd, hds⟩

lemma build_ends (h : Tree.Node tokens .specification t) :
    Ends tokens (fun spec => ∀ d ∈ spec.definitions, d.Written tokens ∧
      Placed tokens d.name d.nameSpan) (build t) := by
  cases h with
  | @specification definitions span each =>
    refine (buildDefinitions_ends lexemes (fun t ht => each t ?_) []).bind fun ds hds => hds
    exact (mem_filter.1 ht).1

end

end Xdr.Ast
