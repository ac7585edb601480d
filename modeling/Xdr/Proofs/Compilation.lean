import Xdr.Proofs.Analysis.Causes
import Xdr.Proofs.Ast.Building
import Xdr.Proofs.Schema.Accepted

/-!
# Every compilation ends in order

A text is compiled to a module without an error, or refused with a report whose first error gives
the category.
-/

namespace Xdr

open List

open Ast (Specification)

variable {findings : List Finding} {tokens : List Token} {spec : Specification}
  {source filename : String} {accepted : Accepted} {tree : Tree} {s : Schema} {d : Ast.Definition}
  {t : TypeInfo} {p : Problem}

def holesOf (text : String) : List String :=
  (piecesFrom false [] text.toList).filterMap fun
    | .plain _ => none
    | .hole name => some name

lemma fillText_ok {text : String} {args : List (String × String)}
    (h : ∀ name ∈ holesOf text, name ∈ args.map (·.1)) : ∃ filled, fillText text args = .ok filled := by
  have hparts : ∀ {x : Except String (List String)}, (∃ parts, x = .ok parts) →
      ∃ filled, (do let parts ← x; return String.join parts) = .ok filled := by
    rintro _ ⟨parts, rfl⟩
    exact ⟨_, rfl⟩
  refine hparts (exists_mapM fun piece hpiece => ?_)
  cases piece with
  | plain cs => exact ⟨_, rfl⟩
  | hole name =>
    obtain ⟨pair, hpair, rfl⟩ := mem_map.1 (h name (mem_filterMap.2 ⟨_, hpiece, rfl⟩))
    cases hlookup : args.lookup pair.1 with
    | some value => exact ⟨value, by simp only [hlookup]⟩
    | none => simpa using lookup_eq_none_iff.1 hlookup pair hpair

lemma Problem.exists_text (p : Problem) : ∃ text, p.code.text p.args = .ok text := by
  have hholes : ∀ name ∈ holesOf p.code.entry.text, name ∈ p.args.map (·.1) := by
    cases p <;> simp only [Problem.args, Problem.code, map_cons, map_nil] <;> decide +kernel
  obtain ⟨text, htext⟩ := fillText_ok hholes
  exact ⟨text, by rw [Code.text, htext]⟩

lemma Code.ofLabel?_label (c : Code) : Code.ofLabel? c.label = some c := by
  cases c <;> decide +kernel

lemma Code.category_ne_internal {c : Code} (h : c ≠ .internalError) :
    c.entry.category ≠ .internal := by
  cases c <;> simp_all [Code.entry]

def reportOf (filename source : String) (findings : List Finding) : Report :=
  ⟨some source, filename, findings.map Finding.diagnostic⟩

lemma errors_reportOf (filename source : String) (findings : List Finding) :
    (reportOf filename source findings).errors =
      (findings.filter Finding.isError).map Finding.diagnostic := by
  rw [Report.errors, reportOf, filter_map]
  rfl

lemma errors_of_clean (filename source : String) (h : anyError findings = false) :
    (reportOf filename source findings).errors = [] := by
  rw [errors_reportOf, filter_eq_nil_iff.2 fun f hf => ?_, map_nil]
  simp [(anyError_eq_false_iff _).1 h f hf]

lemma exists_first_error (h : anyError findings = true) :
    ∃ f, findings.find? Finding.isError = some f := by
  rw [← Option.isSome_iff_exists, find?_isSome]
  exact any_eq_true.1 h

lemma failure?_reportOf {f : Finding} (h : findings.find? Finding.isError = some f)
    (filename source : String) :
    (reportOf filename source findings).failure? = some f.problem.code.entry.category := by
  rw [Report.failure?, errors_reportOf, head?_map, head?_filter, h]
  simp [Finding.diagnostic, Code.ofLabel?_label]

/-- What the text of a module is read off is all there: the types that are mentioned, names, lengths
and labels. -/
structure Schema.Complete (s : Schema) : Prop where
  closed : s.Closed
  named : ∀ t ∈ s.types, ∀ d ∈ t.definition.members, d.name = none → d.base = .builtin .void
  fixed : ∀ t ∈ s.types, ∀ d ∈ t.definition.members, d.arity = .fixed → d.length ≠ none
  bytes : ∀ t ∈ s.types, ∀ d ∈ t.definition.members, d.base.isBytes = true →
    d.arity = .fixed ∨ d.arity = .varying
  plans : ∀ t ∈ s.types, ∀ u, t.definition = .union u → ∃ p, s.unionPlan? u = some p ∧
    s.sizeOf p.disc = .fixed p.discSize

lemma Schema.Complete.exists_classes (h : s.Complete) (c : Config) (ht : t ∈ s.types) :
    ∃ classes, Emit.classes? s c t = some classes := by
  unfold Emit.classes?
  split
  · exact ⟨_, rfl⟩
  · exact ⟨_, rfl⟩
  · exact ⟨_, rfl⟩
  · rename_i u hu
    obtain ⟨p, hp, -⟩ := h.plans t ht u hu
    exact ⟨_, by rw [hp]; rfl⟩

lemma Schema.Complete.exists_moduleLines (h : s.Complete) (c : Config)
    (sourceName : Option String) : ∃ lines, Emit.moduleLines? s c sourceName = some lines := by
  have htypes : ∀ p : TypeInfo → Bool,
      ∃ lines, (s.types.filter p).mapM (Emit.typeLines? s c) = some lines := by
    refine fun p => exists_mapM fun t ht => ?_
    obtain ⟨classes, hclasses⟩ := h.exists_classes c (mem_of_mem_filter ht)
    exact ⟨_, by rw [Emit.typeLines?, hclasses]; rfl⟩
  obtain ⟨enums, henums⟩ := htypes (·.kind = .enum)
  obtain ⟨types, htypes⟩ := htypes (·.kind ≠ .enum)
  exact ⟨_, by rw [Emit.moduleLines?, Emit.bodyLines?, henums, htypes]; rfl⟩

lemma Ast.Definition.Written.declarations (h : d.Written tokens) :
    ∀ m ∈ d.declarations, m.Written tokens := by
  intro m hm
  cases d with
  | const d | enum d => cases hm
  | struct d => exact h.2 m hm
  | typedef d => exact mem_singleton.1 hm ▸ h
  | union d =>
    obtain ⟨hdisc, harms, hfall⟩ := h
    simp only [Ast.Definition.declarations, cons_append, mem_cons, mem_append,
      mem_map, Option.mem_toList] at hm
    obtain rfl | ⟨a, ha, rfl⟩ | hm := hm
    · exact hdisc
    · exact (harms a ha).decl
    · exact hfall m hm

lemma exists_resolved_of_written (hwritten : ∀ d ∈ spec.definitions, d.Written tokens)
    (hs : (analyze spec).schema = some s) (ht : t ∈ s.types) :
    ∃ d, d.Written tokens ∧ Resolves spec d t.definition := by
  obtain ⟨-, order, hmade, -, hschema⟩ := schema_of_analyze hs
  rw [hschema] at ht
  obtain ⟨r, hr, rfl⟩ := mem_map.1 ht
  obtain ⟨d, hd, -, hres⟩ := hmade.exists_written hr
  exact ⟨d, hwritten d hd, hres⟩

lemma complete_of_written (hwritten : ∀ d ∈ spec.definitions, d.Written tokens)
    (hs : (analyze spec).schema = some s) : s.Complete := by
  obtain ⟨hsound, hclosed, hsized, -⟩ := accepted_schema hs
  have hdefinition : ∀ t ∈ s.types, ∃ d, d.Written tokens ∧ Resolves spec d t.definition :=
    fun t ht => exists_resolved_of_written hwritten hs ht
  have hmember : ∀ t ∈ s.types, ∀ m ∈ t.definition.members,
      ∃ w : Ast.Declaration, w.Written tokens ∧ ResolvesDecl spec w m := by
    intro t ht m hm
    obtain ⟨d, hd, hres⟩ := hdefinition t ht
    obtain ⟨w, hw, hwm⟩ := exists_of_forall₂_right hres.members hm
    exact ⟨w, hd.declarations w hw, hwm⟩
  refine ⟨hclosed, fun t ht m hm hname => ?_, fun t ht m hm hfixed => ?_,
    fun t ht m hm hbytes => ?_, fun t ht u hu => ?_⟩
  · obtain ⟨w, hw, hwm⟩ := hmember t ht m hm
    have hbase := hw.named (hwm.name ▸ hname)
    exact Base.written_injective (hwm.base.symm.trans hbase)
  · obtain ⟨w, hw, hwm⟩ := hmember t ht m hm
    obtain ⟨x, hx⟩ := Option.ne_none_iff_exists'.1 (hw.fixed (hwm.arity ▸ hfixed))
    have hlength := hwm.length
    rw [hx] at hlength
    generalize m.length = length at hlength ⊢
    cases hlength
    simp
  · obtain ⟨w, hw, hwm⟩ := hmember t ht m hm
    rw [hwm.arity]
    cases hbase : m.base with
    | named name => simp [hbase, Base.isBytes] at hbytes
    | builtin b =>
      exact hw.bytes b (by rw [hwm.base, hbase]; rfl) (by simpa [hbase, Base.isBytes] using hbytes)
  · obtain ⟨d, hd, hres⟩ := hdefinition t ht
    rw [hu] at hres
    cases hres with
    | union hname hdisc harms hfall =>
      have hlabels : ∀ a ∈ u.arms, a.labels ≠ [] := by
        intro a ha hnil
        obtain ⟨w, hw, hwa⟩ := exists_of_forall₂_right harms ha
        have hlength := hwa.labels.length_eq
        rw [hnil] at hlength
        exact (hd.2.1 w hw).labelled (length_eq_zero_iff.1 hlength)
      obtain ⟨p, hp⟩ := Schema.exists_unionPlan hlabels
      exact ⟨p, hp, hsized.discSize t.name p ((hsound.plan?_eq ht hu).trans hp)⟩

/-- The findings with which a text is refused are those of the first stage that fails. -/
inductive RefusedWith (source : String) : List Finding → Prop
  | parsing {fault : ParseFault} (failed : Tree.parse source = .error fault) :
      RefusedWith source [fault.finding]
  | building {tree : Tree} {fault : Ast.BuildFault} {finding : Finding}
      (parsed : Tree.parse source = .ok tree) (failed : Ast.build tree = .error fault)
      (found : fault.finding? = some finding) : RefusedWith source [finding]
  | analysing {tree : Tree} {spec : Specification} (parsed : Tree.parse source = .ok tree)
      (built : Ast.build tree = .ok spec) (failed : (analyze spec).schema = none) :
      RefusedWith source (analyze spec).findings

/-- A number of the text has more decimal digits than are read and written. -/
def HasHugeNumber (source : String) : Prop :=
  ∃ tokens stopped, Lexer.Splits .first source.toList tokens stopped ∧
    ∃ t ∈ tokens, t.kind = .number ∧
      10 ^ Number.maxDecimalDigits ≤ Number.sizeOfLiteral t.text

structure Blameless (findings : List Finding) : Prop where
  error : anyError findings = true
  own : ∀ f ∈ findings, f.problem.code ≠ .internalError

lemma Problem.Concerns.code_ne (h : p.Concerns spec) : p.code ≠ .internalError := by
  cases p <;> first | exact h.elim | exact nofun

lemma blameless_parsing (fault : ParseFault) : Blameless [fault.finding] := by
  cases fault <;> exact ⟨rfl, forall_mem_singleton.2 nofun⟩

lemma finding?_cases {fault : Ast.BuildFault} (h : fault.Foreseen tokens) :
    (∃ f, fault.finding? = some f ∧ Blameless [f]) ∨
      (fault.finding? = none ∧ fault.cause ≠ .notASpecification ∧ ∃ t ∈ tokens, t.kind = .number ∧
        10 ^ Number.maxDecimalDigits ≤ Number.sizeOfLiteral t.text) := by
  obtain ⟨cause, span⟩ := fault
  cases cause with
  | octal | duplicate | misplacedVoid =>
    exact .inl ⟨_, rfl, rfl, forall_mem_singleton.2 nofun⟩
  | unreadable literal =>
    obtain ⟨t, ht, kind, rfl, hsize⟩ := h
    exact .inr ⟨rfl, nofun, t, ht, kind, hsize⟩
  | defect | notASpecification => exact h.elim

lemma Ast.Definition.Written.numbers (h : d.Written tokens) :
    ∀ x ∈ d.numbers, x.Written tokens := by
  intro x hx
  rcases mem_append.1 hx with hx | hx
  · cases d with
    | const d => exact mem_singleton.1 hx ▸ h
    | enum d =>
      obtain ⟨v, hv, rfl⟩ := mem_map.1 hx
      exact (h v hv).1
    | union d =>
      obtain ⟨a, ha, hx⟩ := mem_flatMap.1 hx
      exact (h.2.1 a ha).labels x hx
    | struct d | typedef d => cases hx
  · obtain ⟨m, hm, hx⟩ := mem_filterMap.1 hx
    exact (h.declarations m hm).size x hx

lemma isWritable_of_predefined {name : String} {v : Int} (h : predefined? name = some v) :
    Number.isWritable v = true := by
  obtain ⟨front, rest, hlist, -⟩ := lookup_eq_some_iff.1 h
  have hmem : ∀ p ∈ front ++ (name, v) :: rest, p.2.natAbs ≤ 1 := by
    rw [← hlist]
    decide
  have hlarge : 1 < 10 ^ Number.maxDecimalDigits := Nat.one_lt_pow (by decide) (by decide)
  exact decide_eq_true (lt_of_le_of_lt (hmem (name, v) (by simp)) hlarge)

lemma exists_huge_of_not_isWritable (hwritten : ∀ d ∈ spec.definitions, d.Written tokens)
    (h : p.Concerns spec) (hp : p.isWritable = false) :
    ∃ t ∈ tokens, t.kind = .number ∧
      10 ^ Number.maxDecimalDigits ≤ Number.sizeOfLiteral t.text := by
  have hgives : ∃ v, spec.Gives v ∧ Number.isWritable v = false := by
    cases p with
    | constantRange _ v | enumRange _ v | lengthRange _ v => exact ⟨v, h, hp⟩
    | _ => cases hp
  obtain ⟨v, hgives | ⟨name, hpre⟩, hv⟩ := hgives
  · obtain ⟨d, hd, loc, text, hmem⟩ := hgives
    obtain ⟨t, ht, kind, rfl, hsize, -⟩ := (hwritten d hd).numbers _ hmem
    refine ⟨t, ht, kind, ?_⟩
    rw [← hsize]
    simpa [Number.isWritable] using hv
  · rw [isWritable_of_predefined hpre] at hv
    cases hv

lemma compile_eq_of_tree (filename : String) (h : Tree.parse source = .ok tree) :
    compile filename source =
      match definitionsOf ⟨some source, filename, []⟩ tree with
      | .error f => ⟨some tree, none, none, .error f⟩
      | .ok spec => ⟨some tree, some spec, some (analyze spec),
          (analyze spec).outcome ⟨some source, filename, []⟩⟩ := by
  have htree : treeOf ⟨some source, filename, []⟩ source = .ok tree := by rw [treeOf, h]
  cases hdefs : definitionsOf ⟨some source, filename, []⟩ tree <;> simp [compile, htree, hdefs]

lemma compile_of_tree (h : Tree.parse source = .ok tree) :
    (compile filename source).outcome =
      match definitionsOf ⟨some source, filename, []⟩ tree with
      | .error f => .error f
      | .ok spec => (analyze spec).outcome ⟨some source, filename, []⟩ := by
  rw [compile_eq_of_tree filename h]
  cases definitionsOf ⟨some source, filename, []⟩ tree <;> rfl

lemma compile_tree (h : Tree.parse source = .ok tree) :
    (compile filename source).tree = some tree := by
  rw [compile_eq_of_tree filename h]
  cases definitionsOf ⟨some source, filename, []⟩ tree <;> rfl

lemma build_of_definitionsOf {report : Report} (h : definitionsOf report tree = .ok spec) :
    Ast.build tree = .ok spec := by
  unfold definitionsOf at h
  split at h
  · rename_i hbuild
    cases h
    exact hbuild
  · split at h
    · cases h
    · split at h <;> cases h

lemma exists_built_of_compile (h : (compile filename source).outcome = .ok accepted) :
    ∃ tokens tree spec, Tree.parse source = .ok tree ∧ Tree.Node tokens .specification tree ∧
      Ast.build tree = .ok spec ∧ (∀ d ∈ spec.definitions, d.Written tokens) ∧
      (analyze spec).schema = some accepted.schema := by
  cases hparse : Tree.parse source with
  | error fault =>
    rw [compile_of_fault hparse] at h
    cases h
  | ok tree =>
    obtain ⟨tokens, hsplits, hnode⟩ := Tree.node_of_parse hparse
    have hends := Ast.build_ends hsplits.lexeme hnode
    rw [compile_of_tree hparse] at h
    cases hdefinitions : definitionsOf ⟨some source, filename, []⟩ tree with
    | error f =>
      rw [hdefinitions] at h
      cases h
    | ok spec =>
      rw [hdefinitions] at h
      have hbuild := build_of_definitionsOf hdefinitions
      rw [hbuild] at hends
      refine ⟨tokens, tree, spec, rfl, hnode, hbuild, fun d hd => (hends d hd).1, ?_⟩
      dsimp only [Analysis.outcome] at h
      split at h
      · cases hschema : (analyze spec).schema with
        | none =>
          rw [hschema] at h
          cases h
        | some schema =>
          rw [hschema] at h
          cases h
          rfl
      · cases h

lemma exists_ok_of_toOption {ε α β : Type} {x : Except ε α} {f : α → β} {b : β}
    (h : x.toOption.map f = some b) : ∃ a, x = .ok a ∧ f a = b := by
  cases x with
  | error e => cases h
  | ok a => exact ⟨a, rfl, Option.some.inj h⟩

lemma exists_schema_of_compile (h : (compile filename source).outcome = .ok accepted) :
    ∃ spec, (analyze spec).schema = some accepted.schema := by
  obtain ⟨-, -, spec, -, -, -, -, hs⟩ := exists_built_of_compile h
  exact ⟨spec, hs⟩

lemma complete_of_compile (h : (compile filename source).outcome = .ok accepted) :
    accepted.schema.Complete := by
  obtain ⟨tokens, -, spec, -, -, -, hwritten, hs⟩ := exists_built_of_compile h
  exact complete_of_written hwritten hs

lemma compile_ends (filename source : String) :
    (∃ accepted, (compile filename source).outcome = .ok accepted ∧
      accepted.report.errors = [] ∧ accepted.schema.Complete) ∨
    (∃ findings, RefusedWith source findings ∧ Blameless findings ∧
      (compile filename source).outcome =
        .error (.reported (reportOf filename source findings))) ∨
    ((compile filename source).outcome = .error .unreadable ∧ HasHugeNumber source) := by
  cases hparse : Tree.parse source with
  | error fault =>
    exact .inr (.inl ⟨_, .parsing hparse, blameless_parsing fault, compile_of_fault hparse⟩)
  | ok tree =>
    obtain ⟨tokens, hsplits, hnode⟩ := Tree.node_of_parse hparse
    have hends := Ast.build_ends hsplits.lexeme hnode
    rw [compile_of_tree hparse, definitionsOf]
    cases hbuild : Ast.build tree with
    | error fault =>
      rw [hbuild] at hends
      obtain ⟨f, hf, hblameless⟩ | ⟨hnone, hcause, hhuge⟩ := finding?_cases hends
      · refine .inr (.inl ⟨_, .building hparse hbuild hf, hblameless, ?_⟩)
        simp only [hf]
        rfl
      · refine .inr (.inr ⟨?_, tokens, none, hsplits, hhuge⟩)
        simp only [hnone]
    | ok spec =>
      rw [hbuild] at hends
      have hwritten := fun d hd => (hends d hd).1
      obtain ⟨hconcerning, hschema⟩ := analyze_ends spec
      dsimp only [Analysis.outcome]
      split
      · cases hfound : (analyze spec).schema with
        | some schema =>
          refine .inl ⟨_, rfl, ?_, complete_of_written hwritten hfound⟩
          have hclean : anyError (analyze spec).findings = false := by
            rw [← Bool.not_eq_true, ← hschema, hfound]
            exact nofun
          exact errors_of_clean filename source hclean
        | none =>
          refine .inr (.inl ⟨_, .analysing hparse hbuild hfound, ⟨hschema.1 hfound, ?_⟩, rfl⟩)
          exact fun f hf => (hconcerning f hf).code_ne
      · rename_i hwritable
        simp only [all_eq_true, not_forall, Bool.not_eq_true] at hwritable
        obtain ⟨f, hf, hwritable⟩ := hwritable
        exact .inr (.inr ⟨rfl, tokens, none, hsplits,
          exists_huge_of_not_isWritable hwritten (hconcerning f hf) hwritable⟩)

/-- Every text is compiled to a module without an error being reported, or is refused with the
diagnostics of the stage that failed, in order, under the category of the first error among them.
The compiler never reports an error of its own, every message can be written, and whatever the module
is read off is there; only a text with a number of more than 4300 digits ends otherwise. -/
theorem generate_returns_or_reports (c : Config) (filename source : String) :
    (∃ accepted text, (compile filename source).outcome = .ok accepted ∧
      generate c filename source = .ok text ∧
      accepted.report.errors = [] ∧ accepted.schema.Complete) ∨
    (∃ findings first, RefusedWith source findings ∧
      generate c filename source = .error (.reported (reportOf filename source findings)) ∧
      findings.find? Finding.isError = some first ∧
      (reportOf filename source findings).failure? = some first.problem.code.entry.category ∧
      first.problem.code.entry.category ≠ .internal ∧
      ∀ f ∈ findings, f.problem.code ≠ .internalError ∧
        ∃ text, f.problem.code.text f.problem.args = .ok text) ∨
    (generate c filename source = .error .unreadable ∧ HasHugeNumber source) := by
  obtain ⟨accepted, houtcome, herrors, hcomplete⟩ | ⟨findings, hrefused, hblameless, houtcome⟩ |
    ⟨houtcome, hhuge⟩ := compile_ends filename source
  · obtain ⟨lines, hlines⟩ := hcomplete.exists_moduleLines c (Emit.sourceName? filename)
    refine .inl ⟨accepted, lines.text, houtcome, ?_, herrors, hcomplete⟩
    have hmodule : accepted.moduleLines c filename = .ok lines := by
      rw [Accepted.moduleLines, hlines]
    rw [generate, houtcome]
    show (do return (← accepted.moduleLines c filename).text) = _
    rw [hmodule]
    rfl
  · obtain ⟨first, hfirst⟩ := exists_first_error hblameless.error
    have hown := hblameless.own first (mem_of_find?_eq_some hfirst)
    refine .inr (.inl ⟨findings, first, hrefused, ?_, hfirst, failure?_reportOf hfirst _ _,
      Code.category_ne_internal hown, fun f hf => ⟨hblameless.own f hf, f.problem.exists_text⟩⟩)
    rw [generate, houtcome]
    rfl
  · refine .inr (.inr ⟨?_, hhuge⟩)
    rw [generate, houtcome]
    rfl

end Xdr
