import Xdr.Proofs.Analysis.Acceptance
import Xdr.Compilation

/-!
# Findings and causes

An analysis either has a schema or finds an error. It never blames itself, and a number that it
quotes is one of the specification.
-/

namespace Xdr

open List

open Ast (Specification)

variable {d : Ast.Definition} {p : Problem} {name : String} {v : Int} {x : Ast.Value} {b : Binding}

def Concerning (spec : Specification) (findings : List Finding) : Prop :=
  ∀ f ∈ findings, f.problem.Concerns spec

section

variable {spec : Specification}

lemma Concerning.append {xs ys : List Finding} (hx : Concerning spec xs)
    (hy : Concerning spec ys) : Concerning spec (xs ++ ys) :=
  fun f hf => (mem_append.1 hf).elim (hx f) (hy f)

lemma Faults.concerning {xs : List Finding} (h : Faults spec xs) : Concerning spec xs :=
  fun f hf => (h f hf).2

lemma concerning_one (h : p.Concerns spec) (span : Option Span) : Concerning spec [⟨p, span⟩] :=
  forall_mem_singleton.2 h

namespace Resolved

variable {α β : Type}

lemma faults_both {a : Resolved α} {b : Resolved β} (ha : Faults spec a.findings)
    (hb : Faults spec b.findings) : Faults spec (both a b).findings :=
  ha.append hb

lemma faults_all {rs : List (Resolved α)} (h : ∀ r ∈ rs, Faults spec r.findings) :
    Faults spec (all rs).findings := by
  induction rs with
  | nil => exact .nil
  | cons r rest ih =>
    exact faults_both (h r (.head _)) (ih fun q hq => h q (mem_cons_of_mem r hq))

end Resolved

section

variable {values : Valuation}
  (hvalues : ∀ b ∈ spec.bindings, ∀ v, values.value? b.name = some v → spec.Gives v)
include hvalues

lemma number_faults (hd : d ∈ spec.definitions) (hx : x ∈ d.numbers) :
    Faults spec (Bindings.number spec.bindings values x).1 ∧
      ∀ v, (Bindings.number spec.bindings values x).2 = some v → spec.Gives v := by
  unfold Bindings.number
  split
  · exact ⟨.nil, fun v hv => Option.some.inj hv ▸ .inl ⟨d, hd, _, _, hx⟩⟩
  · split
    · rename_i problem hbad
      exact ⟨.one (isFault_of_bad hbad) _, nofun⟩
    · rename_i v hpre
      exact ⟨.nil, fun w hw => Option.some.inj hw ▸ .inr ⟨_, reference_eq_predefined hpre⟩⟩
    · rename_i b hb
      exact ⟨.nil, hvalues b (reference_eq_binding hb).1⟩

lemma decl_faults (hd : d ∈ spec.definitions) {m : Ast.Declaration} (hm : m ∈ d.declarations)
    (allowVoid : Bool) :
    Faults spec (Scope.decl ⟨spec.bindings, values⟩ m allowVoid).findings := by
  have hbase : Faults spec (Scope.base ⟨spec.bindings, values⟩ m allowVoid).findings := by
    unfold Scope.base
    repeat' split
    all_goals first | exact .nil | exact .one (by exact ⟨rfl, trivial⟩) _
  have hlength : Faults spec (Scope.length ⟨spec.bindings, values⟩ m).findings := by
    unfold Scope.length
    split
    · exact .nil
    · rename_i size hsize
      have hmem : size ∈ d.numbers :=
        mem_append_right _ (mem_filterMap.2 ⟨m, hm, hsize⟩)
      obtain ⟨hfindings, hvalue⟩ := number_faults hvalues hd hmem
      unfold Scope.number
      generalize Bindings.number spec.bindings values size = r at hfindings hvalue
      obtain ⟨findings, _ | v⟩ := r
      · exact hfindings
      · dsimp only
        split
        · exact hfindings
        · exact hfindings.append (.one (by exact ⟨rfl, hvalue v rfl⟩) _)
  unfold Scope.decl
  split
  · rename_i heq
    rwa [heq] at hbase
  · rename_i heq
    rw [heq] at hbase
    exact hbase.append hlength

lemma arm_faults {d : Ast.UnionDef} (hd : .union d ∈ spec.definitions) {a : Ast.UnionArm}
    (ha : a ∈ d.arms) : Faults spec (Scope.arm ⟨spec.bindings, values⟩ a).findings := by
  refine Resolved.faults_both (decl_faults hvalues hd ?_ true)
    (Resolved.faults_all fun r hr => ?_)
  · simp only [Ast.Definition.declarations, mem_cons, mem_append, mem_map]
    exact .inl (.inr ⟨a, ha, rfl⟩)
  · obtain ⟨x, hx, rfl⟩ := mem_map.1 hr
    exact (number_faults hvalues hd (mem_append_left _ (mem_flatMap.2 ⟨a, ha, hx⟩))).1

lemma definition_faults (hd : d ∈ spec.definitions) {r : Resolved Definition}
    (hr : Scope.definition ⟨spec.bindings, values⟩ d = some r) : Faults spec r.findings := by
  cases d with
  | const d => cases hr
  | enum d =>
    cases hr
    exact .nil
  | struct d =>
    cases hr
    refine Resolved.faults_all fun r hr => ?_
    obtain ⟨f, hf, rfl⟩ := mem_map.1 hr
    exact decl_faults hvalues hd hf false
  | typedef d =>
    cases hr
    exact decl_faults hvalues hd (.head _) false
  | union d =>
    cases hr
    refine Resolved.faults_both (decl_faults hvalues hd (by simp [Ast.Definition.declarations]) false)
      (Resolved.faults_both (Resolved.faults_all fun r hr => ?_) ?_)
    · obtain ⟨a, ha, rfl⟩ := mem_map.1 hr
      exact arm_faults hvalues hd ha
    · cases hfall : d.fallback with
      | none => exact .nil
      | some f => exact decl_faults hvalues hd (by simp [Ast.Definition.declarations, hfall]) true

lemma definitions_faults :
    Faults spec (Scope.definitions ⟨spec.bindings, values⟩ spec).2 := by
  intro f hf
  obtain ⟨r, hr, hf⟩ := mem_flatMap.1 hf
  obtain ⟨d, hd, hr⟩ := mem_filterMap.1 hr
  exact definition_faults hvalues hd hr f hf

end

lemma nestedArrays_faults (defs : Definitions) : Faults spec (defs.nestedArrays spec) := by
  intro f hf
  obtain ⟨m, -, hf⟩ := mem_filterMap.1 hf
  split at hf
  · split at hf
    · cases hf
      exact ⟨rfl, trivial⟩
    · cases hf
  · cases hf

lemma concerning_unionFindings (bindings : Bindings) (defs : Definitions) (d : Ast.UnionDef)
    (u : UnionType) : Concerning spec (unionFindings bindings defs d u) := by
  unfold unionFindings
  split
  · exact concerning_one (by exact trivial) _
  · refine Concerning.append
      ((checkLabels_faults _ _ _ _ _ _).append (namesakes_faults d u)).concerning ?_
    split
    · exact Faults.nil.concerning
    · exact concerning_one (by exact trivial) _

lemma concerning_unions (defs : Definitions) (bindings : Bindings) :
    Concerning spec (defs.unionFindings bindings spec) := by
  intro f hf
  obtain ⟨d, -, hf⟩ := mem_flatMap.1 hf
  split at hf
  · split at hf
    · exact concerning_unionFindings _ _ _ _ f hf
    · cases hf
  · cases hf

variable (hnames : DistinctNames spec)
include hnames

lemma secondFindings_faults : Faults spec (secondFindings spec) := by
  obtain ⟨_, _, -, hcauses, -⟩ := books_evaluateAll hnames
  refine Faults.append (.append ?_ (enumFindings_faults _)) ?_
  · rw [evaluation, Bindings.collect_table hnames]
    exact hcauses.faults
  · rw [resolution, evaluation, Bindings.collect_table hnames]
    exact definitions_faults fun b hb v => gives_of_value? hnames hb

lemma concerning_fourthFindings : Concerning spec (fourthFindings spec) :=
  ((secondFindings_faults hnames).append (nestedArrays_faults _)).concerning.append
    (concerning_unions _ _)

end

lemma analyze_findings (spec : Specification) :
    (analyze spec).findings =
      if anyError (Bindings.collect spec).2 then (Bindings.collect spec).2
      else if anyError (secondFindings spec) then secondFindings spec
      else
        match (resolution spec).1.graph.findCycle with
        | first :: rest => secondFindings spec ++
            [⟨.infiniteType (first :: rest), (Bindings.collect spec).1.spanOf first⟩]
        | [] =>
          if anyError (fourthFindings spec) then fourthFindings spec
          else
            match (resolution spec).1.graph.topologicalOrder with
            | none => fourthFindings spec ++
                [⟨.internalError "layout requested for a cyclic type graph", none⟩]
            | some _ => fourthFindings spec := by
  generalize hcycle : (resolution spec).1.graph.findCycle = cycle
  generalize horder : (resolution spec).1.graph.topologicalOrder = order
  rw [secondFindings, fourthFindings, secondFindings, resolution, evaluation]
  rw [resolution, evaluation] at hcycle horder
  unfold analyze
  simp only [hcycle, horder]
  split
  · rfl
  · split
    · rfl
    · cases cycle with
      | cons first rest => rfl
      | nil =>
        dsimp only
        split
        · rfl
        · cases order <;> rfl

lemma analyze_ends (spec : Specification) :
    Concerning spec (analyze spec).findings ∧
      ((analyze spec).schema = none ↔ anyError (analyze spec).findings = true) := by
  rw [analyze_schema, analyze_findings]
  split
  · rename_i hcollect
    exact ⟨(Bindings.collect_faults spec).concerning, by simp [hcollect]⟩
  · rename_i hcollect
    rw [Bool.not_eq_true, Bindings.collect_clean_iff] at hcollect
    have hnames : DistinctNames spec := hcollect.1
    split
    · rename_i hsecond
      exact ⟨(secondFindings_faults hnames).concerning, by simp [hsecond]⟩
    · rename_i hsecond
      rw [Bool.not_eq_true] at hsecond
      cases hcycle : (resolution spec).1.graph.findCycle with
      | cons first rest =>
        refine ⟨((secondFindings_faults hnames).append (.one (by exact ⟨rfl, trivial⟩) _)).concerning, ?_⟩
        simp [anyError, Finding.isError, Problem.severity, Problem.code, Code.entry]
      | nil =>
        simp only [ne_eq, not_true_eq_false, if_false]
        split
        · rename_i hfourth
          exact ⟨concerning_fourthFindings hnames, by simp [hfourth]⟩
        · rename_i hfourth
          -- there is an order, so that the analysis does not blame itself
          have hacyclic := (Graph.findCycle_eq_nil_iff (Definitions.graph_closed _)).1 hcycle
          obtain ⟨order, horder, -⟩ := (elaborated_of_clean hnames hsecond).exists_order hacyclic
          rw [horder]
          exact ⟨concerning_fourthFindings hnames, by simp [hfourth]⟩

/-! ## Root causes -/

variable {spec : Specification} {blamed : List (Binding × Finding)} {findings : List Finding}
  {rings : List Ring}

/-- Every number outside the range of its name has few enough digits to be quoted in a message. -/
def Quotable (spec : Specification) : Prop :=
  ∀ b ∈ spec.bindings, ∀ x v, b.value = some x → Reaches spec x v → ¬ b.InRange v →
    Number.isWritable v = true

lemma RootCauses.isWritable (h : RootCauses spec findings blamed rings)
    (hquotable : Quotable spec) : ∀ f ∈ findings, f.problem.isWritable = true := by
  intro f hf
  rcases mem_append.1 (h.findings_perm.mem_iff.1 hf) with hf | hf
  · obtain ⟨⟨b, g⟩, hmem, rfl⟩ := mem_map.1 hf
    obtain ⟨hb, hg⟩ := (h.blamed_iff b g).1 hmem
    cases hg with
    | undefined | notAValue => rfl
    | constantRange _ hx hv hout | enumRange _ hx hv hout => exact hquotable b hb _ _ hx hv hout
  · obtain ⟨ring, -, rfl⟩ := mem_map.1 hf
    rfl

lemma RootCauses.exists_not_isWritable (h : RootCauses spec findings blamed rings)
    (hquotable : ¬ Quotable spec) : ∃ f ∈ findings, f.problem.isWritable = false := by
  unfold Quotable at hquotable
  push Not at hquotable
  obtain ⟨b, hb, x, v, hx, hv, hout, hlong⟩ := hquotable
  have hfound : ∀ g, Blamed spec b g → g ∈ findings := by
    intro g hg
    rw [h.findings_perm.mem_iff, mem_append]
    exact .inl (mem_map.2 ⟨(b, g), (h.blamed_iff b g).2 ⟨hb, hg⟩, rfl⟩)
  have hvalue : b.kind.isValue = true := by rw [← value_isSome_iff hb, hx, Option.isSome_some]
  rw [ne_eq, Bool.not_eq_true] at hlong
  cases hkind : b.kind with
  | const => exact ⟨_, hfound _ (.constantRange hkind hx hv hout), hlong⟩
  | enumValue => exact ⟨_, hfound _ (.enumRange hkind hx hv hout), hlong⟩
  | _ => simp [hkind, Kind.isValue, Kind.isType] at hvalue

lemma evaluation_findings_subset (hcollect : anyError (Bindings.collect spec).2 = false) :
    (evaluation spec).findings ⊆ (analyze spec).findings := by
  have hsecond : (evaluation spec).findings ⊆ secondFindings spec := by
    rw [secondFindings, append_assoc]
    exact subset_append_left _ _
  have hfourth : secondFindings spec ⊆ fourthFindings spec := by
    rw [fourthFindings, append_assoc]
    exact subset_append_left _ _
  rw [analyze_findings, hcollect]
  simp only [Bool.false_eq_true, if_false]
  split
  · exact hsecond
  · split
    · exact subset_append_of_subset_left _ hsecond
    · split
      · exact List.Subset.trans hsecond hfourth
      · split
        · exact subset_append_of_subset_left _ (List.Subset.trans hsecond hfourth)
        · exact List.Subset.trans hsecond hfourth

/-- Whatever names are asked for first, once all are evaluated: a constant or enum value has a number
exactly when its references reach one with every name on the way in its range, and it is that one;
the findings are one for each name that is itself to blame and one for each cycle of references. The
messages of these findings can be written, unless one would have to quote a number with too many
digits: then the whole analysis ends without a report. -/
theorem evaluation_exact (spec : Specification)
    (hcollect : anyError (Bindings.collect spec).2 = false) (first : List Binding)
    (hfirst : ∀ b ∈ first, b ∈ spec.bindings ∧ b.kind.isValue = true) :
    let table := (Bindings.collect spec).1
    let e := table.ask (first ++ table.filter (·.kind.isValue)) .empty
    (∀ b ∈ spec.bindings, b.kind.isValue = true →
      ∃ r, table.valueOf b e = (e, r) ∧ ∀ v, r = some v ↔ b.HasNumber spec v) ∧
    (∃ blamed rings, RootCauses spec e.findings blamed rings) ∧
    (Quotable spec ∧ (∀ f ∈ e.findings, f.problem.isWritable = true) ∨
      ¬ Quotable spec ∧ ∀ report, (analyze spec).outcome report = .error .unreadable) := by
  have hnames : DistinctNames spec := ((Bindings.collect_clean_iff spec).1 hcollect).1
  intro table e
  have htable : table = spec.bindings := Bindings.collect_table hnames
  have he : e = Bindings.ask spec.bindings (first ++ spec.bindings.filter (·.kind.isValue)) .empty := by
    simp only [e, htable]
  obtain ⟨blamed, rings, hbooks, hcauses, hnoted⟩ := exists_books hnames hfirst he
  refine ⟨fun b hb hvalue => ?_, ⟨blamed, rings, hcauses⟩, ?_⟩
  · obtain ⟨r, hr⟩ := Option.ne_none_iff_exists'.1 (hnoted b hb hvalue)
    refine ⟨r, ?_, hbooks.number b hb r hr⟩
    rw [Bindings.valueOf, evaluate_succ]
    simp only [hr]
  · by_cases hquotable : Quotable spec
    · exact .inl ⟨hquotable, hcauses.isWritable hquotable⟩
    · refine .inr ⟨hquotable, fun report => ?_⟩
      -- the analysis evaluates in the order of the text, without asking before
      have hnone : ∀ b ∈ ([] : List Binding), b ∈ spec.bindings ∧ b.kind.isValue = true := by
        simp
      obtain ⟨blamed', rings', -, hcauses', -⟩ := exists_books hnames hnone rfl
      obtain ⟨f, hf, hlong⟩ := hcauses'.exists_not_isWritable hquotable
      have hin : f ∈ (evaluation spec).findings := by
        rw [evaluation, Bindings.collect_table hnames]
        exact hf
      have hlost : (analyze spec).findings.all (·.problem.isWritable) = false := by
        rw [List.all_eq_false]
        exact ⟨f, evaluation_findings_subset hcollect hin, by simp [hlong]⟩
      simp [Analysis.outcome, hlost]

/-- Two constants that refer to each other and one that leads to them, a reference to nothing and a
name that leads to it, an enum value out of range and a constant that refers to it, and a constant
that is well defined. -/
def knot : Specification :=
  let const (name target : String) : Ast.Definition := .const ⟨none, name, .reference none target, none⟩
  ⟨none,
    [const "TAIL" "THERE", const "THERE" "BACK", const "BACK" "THERE", const "LOST" "NOWHERE",
     const "AFTER" "LOST", const "COPY" "HUGE",
     .enum ⟨none, "size", [⟨none, "HUGE", .literal none 5000000000 "5000000000", none⟩], none⟩,
     const "YES" "TRUE"]⟩

theorem evaluation_exact_knot :
    ∃ back ∈ knot.bindings, back.name = "BACK" ∧
      let e := Bindings.ask knot.bindings (back :: knot.bindings.filter (·.kind.isValue)) .empty
      (∃ blamed rings, RootCauses knot e.findings blamed rings) ∧
        e.findings.map (·.problem) =
          [.cyclicConstant "BACK" ["BACK", "THERE", "BACK"], .undefinedSymbol "NOWHERE",
            .enumRange "HUGE" 5000000000] ∧
        ∃ yes ∈ knot.bindings, yes.name = "YES" ∧ yes.HasNumber knot 1 := by
  let back : Binding := ⟨"BACK", .const, some (.reference none "THERE"), none, none⟩
  let yes : Binding := ⟨"YES", .const, some (.reference none "TRUE"), none, none⟩
  have htable : (Bindings.collect knot).1 = knot.bindings := by decide +kernel
  have hback : back ∈ knot.bindings := by decide +kernel
  have hyes : yes ∈ knot.bindings := by decide +kernel
  obtain ⟨hnumbers, hcauses, -⟩ := evaluation_exact knot (by decide +kernel) [back]
    (by simpa using ⟨hback, rfl⟩)
  rw [htable] at hnumbers hcauses
  refine ⟨back, hback, rfl, hcauses, by decide +kernel, yes, hyes, rfl, ?_⟩
  obtain ⟨r, hvalue, hr⟩ := hnumbers yes hyes rfl
  have hone : r = some 1 := (congrArg Prod.snd hvalue).symm.trans (by decide +kernel)
  exact (hr 1).1 hone

end Xdr
