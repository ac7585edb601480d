import Xdr.Proofs.Parsing.Exactness

/-!
# Shapes of trees

What the tree of a text looks like: which nodes each rule of the grammar leaves, and what stands
below them.
-/

namespace Xdr

open Grammar List

variable {tokens : List Token} {ts : List Tree} {n : Nonterminal}

def Grammar.rulesFor (n : Nonterminal) : List Production :=
  productions.toList.filter fun p => p.lhs = n

namespace Tree

section

variable (tokens : List Token)

mutual

inductive Remains : Symbol → List Tree → Prop
  | kept {t : Token} (mem : t ∈ tokens) (kind : t.kind = .name ∨ t.kind = .number) :
      Remains (.terminal t.kind) [t.leaf]
  | dropped {k : Terminal} (name : k ≠ .name) (number : k ≠ .number) : Remains (.terminal k) []
  | named {p : Production} {label : String} {trees : List Tree} {span : Option Span}
      (rule : p ∈ productions) (name : p.label = some label) (inner : RemainsAll p.rhs trees) :
      Remains (.nonterminal p.lhs) [.node label trees span]
  | unnamed {p : Production} {trees : List Tree} (rule : p ∈ productions) (name : p.label = none)
      (inner : RemainsAll p.rhs trees) : Remains (.nonterminal p.lhs) trees

inductive RemainsAll : List Symbol → List Tree → Prop
  | nil : RemainsAll [] []
  | cons {s : Symbol} {ss : List Symbol} {trees more : List Tree} (first : Remains s trees)
      (rest : RemainsAll ss more) : RemainsAll (s :: ss) (trees ++ more)

end

end

open Xdr.Derivation

mutual

lemma remains_of_shows : ∀ {d : Derivation} {ts : List Tree}, d.Shows ts →
    d.valid = true → (∀ t ∈ d.word, t ∈ tokens) → Remains tokens d.symbol ts
  | _, _, .kept kind, _, hword => .kept (hword _ (by simp [word])) kind
  | _, _, .dropped name number, _, _ => .dropped name number
  | _, _, .named (p := p) rule name inner, hvalid, hword => by
    obtain ⟨⟨q, hq, hrhs⟩, hall⟩ := valid_node_iff.1 hvalid
    obtain rfl : p = q := Option.some.inj (rule.symm.trans hq)
    rw [symbol_node rule]
    exact .named (Array.mem_of_getElem? rule) name
      (hrhs ▸ remainsAll_of_shows inner hall hword)
  | _, _, .unnamed (p := p) rule name inner, hvalid, hword => by
    obtain ⟨⟨q, hq, hrhs⟩, hall⟩ := valid_node_iff.1 hvalid
    obtain rfl : p = q := Option.some.inj (rule.symm.trans hq)
    rw [symbol_node rule]
    exact .unnamed (Array.mem_of_getElem? rule) name
      (hrhs ▸ remainsAll_of_shows inner hall hword)

lemma remainsAll_of_shows : ∀ {ds : List Derivation} {ts : List Tree},
    ShowsAll ds ts → validAll ds = true → (∀ t ∈ wordAll ds, t ∈ tokens) →
    RemainsAll tokens (ds.map symbol) ts
  | _, _, .nil, _, _ => .nil
  | _, _, .cons first rest, hvalid, hword => by
    rw [validAll, Bool.and_eq_true] at hvalid
    simp only [wordAll, mem_append] at hword
    exact .cons (remains_of_shows first hvalid.1 fun t ht => hword t (.inl ht))
      (remainsAll_of_shows rest hvalid.2 fun t ht => hword t (.inr ht))

end

section

variable {tokens : List Token}

@[simp]
lemma remainsAll_nil : RemainsAll tokens [] ts ↔ ts = [] :=
  ⟨fun h => by cases h; rfl, fun h => h ▸ .nil⟩

@[simp]
lemma remainsAll_cons {s : Symbol} {ss : List Symbol} :
    RemainsAll tokens (s :: ss) ts ↔
      ∃ us, Remains tokens s us ∧ ∃ vs, RemainsAll tokens ss vs ∧ ts = us ++ vs := by
  constructor
  · intro h
    cases h with
    | cons first rest => exact ⟨_, first, _, rest, rfl⟩
  · rintro ⟨us, first, vs, rest, rfl⟩
    exact .cons first rest

@[simp]
lemma remains_terminal {k : Terminal} :
    Remains tokens (.terminal k) ts ↔
      if k = .name ∨ k = .number then ∃ t ∈ tokens, t.kind = k ∧ ts = [t.leaf] else ts = [] := by
  constructor
  · intro h
    cases h with
    | kept mem kind => exact (if_pos kind).symm ▸ ⟨_, mem, rfl, rfl⟩
    | dropped name number => exact (if_neg (not_or.2 ⟨name, number⟩)).symm ▸ rfl
  · split_ifs with hkept
    · rintro ⟨t, mem, rfl, rfl⟩
      exact .kept mem hkept
    · rintro rfl
      exact .dropped (fun h => hkept (.inl h)) (fun h => hkept (.inr h))

def Makes (p : Production) (trees ts : List Tree) : Prop :=
  match p.label with
  | some label => ∃ span, ts = [.node label trees span]
  | none => ts = trees

lemma remains_nonterminal {rules : List Production} (hrules : rulesFor n = rules)
    (h : Remains tokens (.nonterminal n) ts) :
    ∃ p ∈ rules, ∃ trees, RemainsAll tokens p.rhs trees ∧ Makes p trees ts := by
  subst hrules
  cases h with
  | named rule name inner =>
    refine ⟨_, by simpa [rulesFor] using rule, _, inner, ?_⟩
    rw [Makes, name]
    exact ⟨_, rfl⟩
  | unnamed rule name inner =>
    refine ⟨_, by simpa [rulesFor] using rule, _, inner, ?_⟩
    rw [Makes, name]

end

section

variable (tokens : List Token)

/-- `Node tokens n t`: the tree `t` is a node of `n` with leaves of the tokens. Bodies that stand in
place of a type are left open. -/
inductive Node : Nonterminal → Tree → Prop
  | literal {t : Token} {span : Option Span} (mem : t ∈ tokens) (kind : t.kind = .number) :
      Node .value (.node "literal" [t.leaf] span)
  | reference {t : Token} {span : Option Span} (kind : t.kind = .name) (mem : t ∈ tokens) :
      Node .value (.node "reference" [t.leaf] span)
  | builtin {rule : String} {b : Builtin} {span : Option Span}
      (known : Ast.builtinOfRule? rule = some b) :
      Node .typeSpecifier (.node rule [] span)
  | inlineBody {rule kind : String} {children : List Tree} {span : Option Span}
      (known : Ast.inlineKindOfRule? rule = some kind) :
      Node .typeSpecifier (.node rule children span)
  | mention {rule : String} {t : Token} {span : Option Span}
      (known : rule ∈ ["name_t", "tagged_ref_t"]) (kind : t.kind = .name) :
      Node .typeSpecifier (.node rule [t.leaf] span)
  | nothing {span : Option Span} : Node .declaration (.node "void_decl" [] span)
  | plain {rule : String} {ty : Tree} {t : Token} {span : Option Span}
      (known : rule ∈ ["scalar_decl", "var_array_decl", "optional_decl"])
      (type : Node .typeSpecifier ty) (kind : t.kind = .name) (mem : t ∈ tokens) :
      Node .declaration (.node rule [ty, t.leaf] span)
  | sized {rule : String} {ty size : Tree} {t : Token} {span : Option Span}
      (known : rule ∈ ["fixed_array_decl", "var_array_decl"])
      (type : Node .typeSpecifier ty) (kind : t.kind = .name)
      (value : Node .value size) (mem : t ∈ tokens) :
      Node .declaration (.node rule [ty, t.leaf, size] span)
  | bytes {rule : String} {t : Token} {span : Option Span}
      (known : rule ∈ ["var_opaque_decl", "string_decl"]) (kind : t.kind = .name)
      (mem : t ∈ tokens) :
      Node .declaration (.node rule [t.leaf] span)
  | sizedBytes {rule : String} {size : Tree} {t : Token} {span : Option Span}
      (known : rule ∈ ["fixed_opaque_decl", "var_opaque_decl", "string_decl"])
      (kind : t.kind = .name) (value : Node .value size) (mem : t ∈ tokens) :
      Node .declaration (.node rule [t.leaf, size] span)
  | variant {t : Token} {value : Tree} {span : Option Span} (kind : t.kind = .name)
      (number : Node .value value) (mem : t ∈ tokens) :
      Node .enumVariant (.node "enum_variant" [t.leaf, value] span)
  | enumBody {variants : List Tree} {span : Option Span}
      (each : ∀ v ∈ variants, Node .enumVariant v) :
      Node .enumBody (.node "enum_body" variants span)
  | structBody {fields : List Tree} {span : Option Span} (some : fields ≠ [])
      (each : ∀ f ∈ fields, Node .declaration f) :
      Node .structBody (.node "struct_body" fields span)
  | label {value : Tree} {span : Option Span} (number : Node .value value) :
      Node .caseLabel (.node "case_label" [value] span)
  | arm {labels : List Tree} {declaration : Tree} {span : Option Span} (some : labels ≠ [])
      (each : ∀ l ∈ labels, Node .caseLabel l) (decl : Node .declaration declaration) :
      Node .caseSpec (.node "case_spec" (labels ++ [declaration]) span)
  | fallback {declaration : Tree} {span : Option Span} (decl : Node .declaration declaration) :
      Node .defaultSpec (.node "default_spec" [declaration] span)
  | unionBody {declaration : Tree} {arms : List Tree} {fallback : Option Tree} {span : Option Span}
      (decl : Node .declaration declaration) (each : ∀ a ∈ arms, Node .caseSpec a)
      (rest : ∀ f ∈ fallback, Node .defaultSpec f) :
      Node .unionBody (.node "union_body" (declaration :: (arms ++ fallback.toList)) span)
  | const {t : Token} {value : Tree} {span : Option Span} (kind : t.kind = .name)
      (number : Node .value value) (mem : t ∈ tokens) :
      Node .definition (.node "const_def" [t.leaf, value] span)
  | typedef {declaration : Tree} {span : Option Span} (decl : Node .declaration declaration) :
      Node .definition (.node "typedef_def" [declaration] span)
  | enum {t : Token} {body : Tree} {span : Option Span} (kind : t.kind = .name)
      (inner : Node .enumBody body) (mem : t ∈ tokens) :
      Node .definition (.node "enum_def" [t.leaf, body] span)
  | struct {t : Token} {body : Tree} {span : Option Span} (kind : t.kind = .name)
      (inner : Node .structBody body) (mem : t ∈ tokens) :
      Node .definition (.node "struct_def" [t.leaf, body] span)
  | union {t : Token} {body : Tree} {span : Option Span} (kind : t.kind = .name)
      (inner : Node .unionBody body) (mem : t ∈ tokens) :
      Node .definition (.node "union_def" [t.leaf, body] span)
  | specification {definitions : List Tree} {span : Option Span}
      (each : ∀ d ∈ definitions, Node .definition d) :
      Node .specification (.node "specification" definitions span)

end

lemma Node.isNode {t : Tree} (h : Node tokens n t) : t.isNode = true := by
  cases h <;> rfl

/-- One tree remains of the nonterminal, a node of it. -/
def Single (tokens : List Token) (n : Nonterminal) : Prop :=
  ∀ {ts : List Tree}, Remains tokens (.nonterminal n) ts → ∃ t, ts = [t] ∧ Node tokens n t

section

variable {tokens : List Token} {ts : List Tree}

lemma remains_repeated {helper : Nonterminal} {item : List Symbol}
    (h : Remains tokens (.nonterminal helper) ts) (hrules : rulesFor helper = repeated helper item)
    (hsingle : Single tokens n)
    (hitem : ∀ {us}, RemainsAll tokens item us → Remains tokens (.nonterminal n) us) :
    ts ≠ [] ∧ ∀ t ∈ ts, Node tokens n t := by
  induction hn : ts.length using Nat.strong_induction_on generalizing ts with
  | _ n ih =>
    obtain ⟨p, hp, trees, hall, hmakes⟩ := remains_nonterminal hrules h
    simp only [repeated, Grammar.pass, mem_cons, not_mem_nil, or_false] at hp
    rcases hp with rfl | rfl <;> simp only [Makes] at hmakes <;> subst hmakes
    · obtain ⟨t, rfl, ht⟩ := hsingle (hitem hall)
      exact ⟨by simp, by simpa using ht⟩
    · obtain ⟨us, hus, vs, hvs, rfl⟩ := remainsAll_cons.1 hall
      obtain ⟨t, rfl, ht⟩ := hsingle (hitem hvs)
      obtain ⟨-, hall⟩ := ih us.length (by simp at hn; omega) hus rfl
      refine ⟨by simp, fun x hx => ?_⟩
      rcases mem_append.1 hx with hx | hx
      · exact hall x hx
      · exact mem_singleton.1 hx ▸ ht

lemma node_of_value : Single tokens .value := by
  intro ts h
  have hcases := remains_nonterminal (show rulesFor .value = specifierRules.drop 16 from rfl) h
  simp [specifierRules, Grammar.rule, Makes] at hcases
  obtain ⟨t, ⟨mem, kind⟩, span, rfl⟩ | ⟨t, ⟨mem, kind⟩, span, rfl⟩ := hcases
  · exact ⟨_, rfl, .literal mem kind⟩
  · exact ⟨_, rfl, .reference kind mem⟩

lemma node_of_typeSpecifier : Single tokens .typeSpecifier := by
  intro ts h
  have hcases :=
    remains_nonterminal (show rulesFor .typeSpecifier = specifierRules.take 16 from rfl) h
  simp [specifierRules, Grammar.rule, Makes] at hcases
  obtain ⟨_, rfl⟩ | ⟨_, rfl⟩ | ⟨_, rfl⟩ | ⟨_, rfl⟩ | ⟨_, rfl⟩ | ⟨_, rfl⟩ | ⟨_, rfl⟩ | ⟨_, rfl⟩ |
    ⟨_, rfl⟩ | ⟨_, -, _, rfl⟩ | ⟨_, -, _, rfl⟩ | ⟨_, -, _, rfl⟩ | ⟨t, ⟨-, kind⟩, _, rfl⟩ |
    ⟨t, ⟨-, kind⟩, _, rfl⟩ := hcases
  any_goals exact ⟨_, rfl, .builtin rfl⟩
  any_goals exact ⟨_, rfl, .inlineBody rfl⟩
  all_goals exact ⟨_, rfl, .mention (by decide) kind⟩

lemma node_of_declaration : Single tokens .declaration := by
  intro ts h
  have hcases := remains_nonterminal (show rulesFor .declaration = declarationRules from rfl) h
  simp [declarationRules, Grammar.rule, Makes] at hcases
  obtain ⟨us, t, ⟨ty, mem, kind⟩, _, rfl⟩ | ⟨us, t, vs, ⟨ty, ⟨mem, kind⟩, size⟩, _, rfl⟩ |
    ⟨us, t, ⟨ty, mem, kind⟩, _, rfl⟩ | ⟨us, t, vs, ⟨ty, ⟨mem, kind⟩, size⟩, _, rfl⟩ |
    ⟨t, vs, ⟨⟨mem, kind⟩, size⟩, _, rfl⟩ | ⟨t, ⟨mem, kind⟩, _, rfl⟩ |
    ⟨t, vs, ⟨⟨mem, kind⟩, size⟩, _, rfl⟩ | ⟨t, ⟨mem, kind⟩, _, rfl⟩ |
    ⟨t, vs, ⟨⟨mem, kind⟩, size⟩, _, rfl⟩ | ⟨us, t, ⟨ty, mem, kind⟩, _, rfl⟩ | ⟨_, rfl⟩ := hcases
  any_goals obtain ⟨_, rfl, hty⟩ := node_of_typeSpecifier ty
  any_goals obtain ⟨_, rfl, hsize⟩ := node_of_value size
  · exact ⟨_, rfl, .plain (by decide) hty kind mem⟩
  · exact ⟨_, rfl, .sized (by decide) hty kind hsize mem⟩
  · exact ⟨_, rfl, .plain (by decide) hty kind mem⟩
  · exact ⟨_, rfl, .sized (by decide) hty kind hsize mem⟩
  · exact ⟨_, rfl, .sizedBytes (by decide) kind hsize mem⟩
  · exact ⟨_, rfl, .bytes (by decide) kind mem⟩
  · exact ⟨_, rfl, .sizedBytes (by decide) kind hsize mem⟩
  · exact ⟨_, rfl, .bytes (by decide) kind mem⟩
  · exact ⟨_, rfl, .sizedBytes (by decide) kind hsize mem⟩
  · exact ⟨_, rfl, .plain (by decide) hty kind mem⟩
  · exact ⟨_, rfl, .nothing⟩

lemma node_of_enumVariant : Single tokens .enumVariant := by
  intro ts h
  have hcases :=
    remains_nonterminal (show rulesFor .enumVariant = (bodyRules.drop 4).take 1 from rfl) h
  simp [bodyRules, repeated, Grammar.rule, Makes] at hcases
  obtain ⟨t, vs, ⟨⟨mem, kind⟩, value⟩, span, rfl⟩ := hcases
  obtain ⟨v, rfl, hv⟩ := node_of_value value
  exact ⟨_, rfl, .variant kind hv mem⟩

lemma node_of_enumBody : Single tokens .enumBody := by
  intro ts h
  have hcases := remains_nonterminal (show rulesFor .enumBody = bodyRules.take 2 from rfl) h
  simp [bodyRules, repeated, Grammar.rule, Makes] at hcases
  obtain ⟨us, first, span, rfl⟩ | ⟨us, vs, ⟨first, more⟩, span, rfl⟩ := hcases
  all_goals obtain ⟨v, rfl, hv⟩ := node_of_enumVariant first
  · exact ⟨_, rfl, .enumBody (by simpa using hv)⟩
  · have hmore := (remains_repeated more rfl node_of_enumVariant (by simp)).2
    exact ⟨_, rfl, .enumBody (by simpa using ⟨hv, hmore⟩)⟩

lemma node_of_structBody : Single tokens .structBody := by
  intro ts h
  have hcases :=
    remains_nonterminal (show rulesFor .structBody = (bodyRules.drop 5).take 1 from rfl) h
  simp [bodyRules, repeated, Grammar.rule, Makes] at hcases
  obtain ⟨us, fields, span, rfl⟩ := hcases
  obtain ⟨hsome, heach⟩ := remains_repeated fields rfl node_of_declaration (by simp)
  exact ⟨_, rfl, .structBody hsome heach⟩

lemma node_of_caseLabel : Single tokens .caseLabel := by
  intro ts h
  have hcases :=
    remains_nonterminal (show rulesFor .caseLabel = (bodyRules.drop 15).take 1 from rfl) h
  simp [bodyRules, repeated, Grammar.rule, Makes] at hcases
  obtain ⟨us, value, span, rfl⟩ := hcases
  obtain ⟨v, rfl, hv⟩ := node_of_value value
  exact ⟨_, rfl, .label hv⟩

lemma node_of_caseSpec : Single tokens .caseSpec := by
  intro ts h
  have hcases :=
    remains_nonterminal (show rulesFor .caseSpec = (bodyRules.drop 12).take 1 from rfl) h
  simp [bodyRules, repeated, Grammar.rule, Makes] at hcases
  obtain ⟨us, vs, ⟨labels, declaration⟩, span, rfl⟩ := hcases
  obtain ⟨d, rfl, hd⟩ := node_of_declaration declaration
  obtain ⟨hsome, heach⟩ := remains_repeated labels rfl node_of_caseLabel (by simp)
  exact ⟨_, rfl, .arm hsome heach hd⟩

lemma node_of_defaultSpec : Single tokens .defaultSpec := by
  intro ts h
  have hcases :=
    remains_nonterminal (show rulesFor .defaultSpec = (bodyRules.drop 16).take 1 from rfl) h
  simp [bodyRules, repeated, Grammar.rule, Makes] at hcases
  obtain ⟨us, declaration, span, rfl⟩ := hcases
  obtain ⟨d, rfl, hd⟩ := node_of_declaration declaration
  exact ⟨_, rfl, .fallback hd⟩

lemma node_of_unionBody : Single tokens .unionBody := by
  intro ts h
  have hcases :=
    remains_nonterminal (show rulesFor .unionBody = (bodyRules.drop 8).take 2 from rfl) h
  simp [bodyRules, repeated, Grammar.rule, Makes] at hcases
  obtain ⟨us, vs, ⟨declaration, arms⟩, span, rfl⟩ |
    ⟨us, vs, ws, ⟨declaration, arms, fallback⟩, span, rfl⟩ := hcases
  all_goals
    obtain ⟨d, rfl, hd⟩ := node_of_declaration declaration
    have harms := (remains_repeated arms rfl node_of_caseSpec (by simp)).2
  · refine ⟨.node "union_body" (d :: (vs ++ none.toList)) span, by simp, ?_⟩
    exact .unionBody hd harms (by simp)
  · obtain ⟨f, rfl, hf⟩ := node_of_defaultSpec fallback
    refine ⟨.node "union_body" (d :: (vs ++ (some f).toList)) span, by simp, ?_⟩
    exact .unionBody hd harms (by simpa using hf)

lemma node_of_definition : Single tokens .definition := by
  intro ts h
  have hcases := remains_nonterminal (show rulesFor .definition = definitionRules.take 5 from rfl) h
  simp [definitionRules, Grammar.pass, Makes] at hcases
  obtain h | h | h | h | h := hcases
  · have hcases := remains_nonterminal (show rulesFor .constDef =
      (definitionRules.drop 5).take 1 from rfl) h
    simp [definitionRules, Grammar.rule, Makes] at hcases
    obtain ⟨t, vs, ⟨⟨mem, kind⟩, value⟩, span, rfl⟩ := hcases
    obtain ⟨v, rfl, hv⟩ := node_of_value value
    exact ⟨_, rfl, .const kind hv mem⟩
  · have hcases := remains_nonterminal (show rulesFor .typedefDef =
      (definitionRules.drop 6).take 1 from rfl) h
    simp [definitionRules, Grammar.rule, Makes] at hcases
    obtain ⟨us, declaration, span, rfl⟩ := hcases
    obtain ⟨d, rfl, hd⟩ := node_of_declaration declaration
    exact ⟨_, rfl, .typedef hd⟩
  · have hcases := remains_nonterminal (show rulesFor .enumDef =
      (definitionRules.drop 7).take 1 from rfl) h
    simp [definitionRules, Grammar.rule, Makes] at hcases
    obtain ⟨t, vs, ⟨⟨mem, kind⟩, body⟩, span, rfl⟩ := hcases
    obtain ⟨b, rfl, hb⟩ := node_of_enumBody body
    exact ⟨_, rfl, .enum kind hb mem⟩
  · have hcases := remains_nonterminal (show rulesFor .structDef =
      (definitionRules.drop 8).take 1 from rfl) h
    simp [definitionRules, Grammar.rule, Makes] at hcases
    obtain ⟨t, vs, ⟨⟨mem, kind⟩, body⟩, span, rfl⟩ := hcases
    obtain ⟨b, rfl, hb⟩ := node_of_structBody body
    exact ⟨_, rfl, .struct kind hb mem⟩
  · have hcases := remains_nonterminal (show rulesFor .unionDef =
      (definitionRules.drop 9).take 1 from rfl) h
    simp [definitionRules, Grammar.rule, Makes] at hcases
    obtain ⟨t, vs, ⟨⟨mem, kind⟩, body⟩, span, rfl⟩ := hcases
    obtain ⟨b, rfl, hb⟩ := node_of_unionBody body
    exact ⟨_, rfl, .union kind hb mem⟩

lemma node_of_specification : Single tokens .specification := by
  intro ts h
  have hcases := remains_nonterminal (show rulesFor .specification =
    [Grammar.rule .specification "specification" [],
     Grammar.rule .specification "specification" [.nonterminal .definitions]] from rfl) h
  simp [Grammar.rule, Makes] at hcases
  obtain ⟨span, rfl⟩ | ⟨us, definitions, span, rfl⟩ := hcases
  · exact ⟨_, rfl, .specification (by simp)⟩
  · exact ⟨_, rfl, .specification (remains_repeated definitions rfl node_of_definition (by simp)).2⟩

end

lemma node_of_parse {source : String} {tree : Tree} (h : Tree.parse source = .ok tree) :
    ∃ tokens, Lexer.Splits .first source.toList tokens none ∧ Node tokens .specification tree := by
  obtain ⟨tokens, d, hsplits, hspells, hshows⟩ := Tree.parse_ok_iff.1 h
  have hremains := remains_of_shows hshows hspells.valid fun t ht => hspells.word ▸ ht
  rw [hspells.symbol] at hremains
  obtain ⟨t, ht, hnode⟩ := node_of_specification hremains
  cases ht
  exact ⟨tokens, hsplits, hnode⟩

end Tree

end Xdr
