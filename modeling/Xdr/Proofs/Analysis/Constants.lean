import Xdr.Proofs.Analysis.Evaluation

/-!
# The second step: constants

Once evaluation finds no error, the numbers that it noted are those that the values of a specification
denote wherever they stand, and the numbers of an enum are told apart by them.
-/

namespace Xdr

open List

open Ast (Specification)

variable {spec : Specification} {x : Ast.Value}

structure Numbered (spec : Specification) (values : Valuation) : Prop where
  names : DistinctNames spec
  total : ∀ b ∈ spec.bindings, b.kind.isValue = true → ∃ v, Evaluates spec b v
  value : ∀ b ∈ spec.bindings, ∀ v, values.value? b.name = some v ↔ Evaluates spec b v

lemma numbered_evaluateAll (hnames : DistinctNames spec)
    (hclean : anyError (Bindings.evaluateAll spec.bindings).findings = false) :
    Numbered spec (Bindings.evaluateAll spec.bindings).values :=
  ⟨hnames, (evaluateAll_clean_iff hnames).1 hclean,
    fun _ hb v => value?_eq_some_iff hnames hclean hb v⟩

section

variable {spec : Specification} {values : Valuation}

lemma Numbered.number_of_denotes (h : Numbered spec values) {v : Int} (hv : spec.Denotes x v) :
    Bindings.number spec.bindings values x = ([], some v) := by
  cases hv with
  | literal => rfl
  | predefined loc hpre => simp [Bindings.number, Bindings.reference, hpre]
  | named loc hb hx hv =>
    rename_i b x
    have hvalue := value_isSome_iff hb
    rw [hx, Option.isSome_some] at hvalue
    obtain ⟨w, hw⟩ := h.total b hb hvalue.symm
    have hwv : w = v := by
      obtain ⟨y, hy, hd, -⟩ := hw
      rw [hx] at hy
      cases hy
      exact hd.unique h.names hv
    simp only [Bindings.number, Bindings.reference, h.names.predefined?_eq_none hb,
      h.names.find?_name hb, ← hvalue, ite_true, (h.value b hb w).2 hw, hwv]

lemma Numbered.number_of_not_denotes (h : Numbered spec values) (hx : ∀ v, ¬ spec.Denotes x v) :
    ∃ f, f.isError = true ∧ Bindings.number spec.bindings values x = ([f], none) := by
  cases x with
  | literal loc v text => exact absurd (.literal loc v text) (hx v)
  | reference loc name =>
    cases href : Bindings.reference spec.bindings name with
    | bad problem =>
      have hfault : problem.IsFault spec := isFault_of_bad href
      exact ⟨⟨problem, loc⟩, decide_eq_true hfault.1, by simp [Bindings.number, href]⟩
    | predefined v => exact absurd (.predefined loc (reference_eq_predefined href)) (hx v)
    | binding b =>
      obtain ⟨hb, rfl, hvalue⟩ := reference_eq_binding href
      obtain ⟨v, y, hy, hv, -⟩ := h.total b hb hvalue
      exact absurd (.named loc hb hy hv) (hx v)

lemma repeatedNumbers_faults (enum : String) (seen : List (Int × String))
    (variants : List Ast.EnumVariant) : Faults spec (repeatedNumbers values enum seen variants) := by
  fun_induction repeatedNumbers values enum seen variants with
  | case1 => exact .nil
  | case2 seen v rest _ ih => exact ih
  | case3 seen v rest number _ previous _ ih => exact forall_mem_cons.2 ⟨⟨rfl, trivial⟩, ih⟩
  | case4 seen v rest number _ _ ih => exact ih

lemma enumFindings_faults (values : Valuation) : Faults spec (values.enumFindings spec) := by
  intro f hf
  obtain ⟨d, -, hf⟩ := mem_flatMap.1 hf
  cases d with
  | enum d => exact repeatedNumbers_faults d.name [] d.variants f hf
  | _ => cases hf

lemma repeatedNumbers_eq_nil_iff (enum : String) (hnames : DistinctNames spec)
    (variants : List Ast.EnumVariant) :
    ∀ seen : List (Int × String),
      (∀ x ∈ variants, ∃ n, values.value? x.name = some n ∧ spec.Denotes x.value n) →
      (repeatedNumbers values enum seen variants = [] ↔
        (variants.Pairwise fun x y => spec.Differ x.value y.value) ∧
          ∀ x ∈ variants, ∀ n, spec.Denotes x.value n → seen.lookup n = none) := by
  induction variants with
  | nil => simp [repeatedNumbers]
  | cons x rest ih =>
    intro seen hall
    obtain ⟨n, hvalue, hn⟩ := hall x (by simp)
    have hrest := fun y hy => hall y (mem_cons_of_mem x hy)
    cases hseen : seen.lookup n with
    | some previous =>
      simp only [repeatedNumbers, hvalue, hseen, reduceCtorEq, false_iff]
      rintro ⟨-, hnone⟩
      rw [hnone x (by simp) n hn] at hseen
      cases hseen
    | none =>
      have hlookup : ∀ m, ((n, x.name) :: seen).lookup m = none ↔ m ≠ n ∧ seen.lookup m = none := by
        intro m
        by_cases hm : m = n
        · simp [hm]
        · simp [lookup_cons, hm, beq_eq_false_iff_ne.2 hm]
      simp only [repeatedNumbers, hvalue, hseen, ih _ hrest, hlookup, pairwise_cons]
      constructor
      · rintro ⟨hpair, hother⟩
        refine ⟨⟨fun y hy v hxv hyv => ?_, hpair⟩, ?_⟩
        · exact (hother y hy v hyv).1 (hxv.unique hnames hn)
        · intro y hy v hyv
          rcases mem_cons.1 hy with rfl | hy
          · rw [hyv.unique hnames hn, hseen]
          · exact (hother y hy v hyv).2
      · rintro ⟨⟨hdiffer, hpair⟩, hnone⟩
        refine ⟨hpair, fun y hy v hyv => ⟨?_, hnone y (mem_cons_of_mem x hy) v hyv⟩⟩
        rintro rfl
        exact hdiffer y hy v hn hyv

end

lemma mem_bindings_of_const {d : Ast.ConstDef} (hd : .const d ∈ spec.definitions) :
    ⟨d.name, .const, some d.value, d.nameSpan, none⟩ ∈ spec.bindings :=
  mem_flatMap.2 ⟨_, hd, by simp [Bindings.ofDefinition]⟩

lemma mem_bindings_of_variant {d : Ast.EnumDef} (hd : .enum d ∈ spec.definitions)
    {x : Ast.EnumVariant} (hx : x ∈ d.variants) :
    ⟨x.name, .enumValue, some x.value, x.nameSpan, some d.name⟩ ∈ spec.bindings :=
  mem_flatMap.2 ⟨_, hd, by
    rw [Bindings.ofDefinition]
    exact .tail _ (mem_map.2 ⟨x, hx, rfl⟩)⟩

lemma mem_bindings_cases {b : Binding} (hb : b ∈ spec.bindings) (hvalue : b.kind.isValue = true) :
    (∃ d, .const d ∈ spec.definitions ∧ b = ⟨d.name, .const, some d.value, d.nameSpan, none⟩) ∨
      ∃ d, .enum d ∈ spec.definitions ∧ ∃ x ∈ d.variants,
        b = ⟨x.name, .enumValue, some x.value, x.nameSpan, some d.name⟩ := by
  obtain ⟨d, hd, hb⟩ := mem_flatMap.1 hb
  cases d with
  | const d => exact .inl ⟨d, hd, mem_singleton.1 hb⟩
  | enum d =>
    rcases mem_cons.1 hb with rfl | hb
    · cases hvalue
    · obtain ⟨x, hx, rfl⟩ := mem_map.1 hb
      exact .inr ⟨d, hd, x, hx, rfl⟩
  | _ =>
    have hb' := mem_singleton.1 hb
    subst hb'
    cases hvalue

lemma evaluates_const_iff (name : String) (x : Ast.Value) (span : Option Span) (v : Int) :
    Evaluates spec ⟨name, .const, some x, span, none⟩ v ↔
      spec.Denotes x v ∧ -(2 ^ 63) ≤ v ∧ v ≤ 2 ^ 63 - 1 := by
  simp [Evaluates, rangeProblem?, inConstRange]

lemma evaluates_variant_iff (name : String) (x : Ast.Value) (span : Option Span)
    (owner : Option String) (v : Int) :
    Evaluates spec ⟨name, .enumValue, some x, span, owner⟩ v ↔
      spec.Denotes x v ∧ -(2 ^ 31) ≤ v ∧ v ≤ 2 ^ 31 - 1 := by
  simp [Evaluates, rangeProblem?, inEnumRange]

lemma evaluated_iff (spec : Specification) :
    (∀ b ∈ spec.bindings, b.kind.isValue = true → ∃ v, Evaluates spec b v) ↔
      (∀ d, .const d ∈ spec.definitions →
        ∃ v, spec.Denotes d.value v ∧ -(2 ^ 63) ≤ v ∧ v ≤ 2 ^ 63 - 1) ∧
      ∀ d, .enum d ∈ spec.definitions → ∀ x ∈ d.variants,
        ∃ v, spec.Denotes x.value v ∧ -(2 ^ 31) ≤ v ∧ v ≤ 2 ^ 31 - 1 := by
  constructor
  · intro hall
    refine ⟨fun d hd => ?_, fun d hd x hx => ?_⟩
    · obtain ⟨v, hv⟩ := hall _ (mem_bindings_of_const hd) rfl
      exact ⟨v, (evaluates_const_iff _ _ _ v).1 hv⟩
    · obtain ⟨v, hv⟩ := hall _ (mem_bindings_of_variant hd hx) rfl
      exact ⟨v, (evaluates_variant_iff _ _ _ _ v).1 hv⟩
  · rintro ⟨hconst, henum⟩ b hb hvalue
    rcases mem_bindings_cases hb hvalue with ⟨d, hd, rfl⟩ | ⟨d, hd, x, hx, rfl⟩
    · obtain ⟨v, hv⟩ := hconst d hd
      exact ⟨v, (evaluates_const_iff _ _ _ v).2 hv⟩
    · obtain ⟨v, hv⟩ := henum d hd x hx
      exact ⟨v, (evaluates_variant_iff _ _ _ _ v).2 hv⟩

lemma enumFindings_clean_iff {values : Valuation} (h : Numbered spec values) :
    anyError (values.enumFindings spec) = false ↔
      ∀ d, .enum d ∈ spec.definitions →
        d.variants.Pairwise fun x y => spec.Differ x.value y.value := by
  have hknown : ∀ d, .enum d ∈ spec.definitions → ∀ x ∈ d.variants,
      ∃ n, values.value? x.name = some n ∧ spec.Denotes x.value n := by
    intro d hd x hx
    obtain ⟨v, hv⟩ := h.total _ (mem_bindings_of_variant hd hx) rfl
    exact ⟨v, (h.value _ (mem_bindings_of_variant hd hx) v).2 hv,
      ((evaluates_variant_iff _ _ _ _ v).1 hv).1⟩
  have hone : ∀ d, .enum d ∈ spec.definitions →
      (repeatedNumbers values d.name [] d.variants = [] ↔
        d.variants.Pairwise fun x y => spec.Differ x.value y.value) := by
    intro d hd
    rw [repeatedNumbers_eq_nil_iff d.name h.names d.variants [] (hknown d hd)]
    simp
  rw [anyError_eq_false_iff]
  constructor
  · intro hclean d hd
    have hfaults : Faults spec (repeatedNumbers values d.name [] d.variants) :=
      repeatedNumbers_faults _ _ _
    rw [← hone d hd]
    refine hfaults.eq_nil ((anyError_eq_false_iff _).2 fun f hf => ?_)
    exact hclean f (mem_flatMap.2 ⟨.enum d, hd, hf⟩)
  · intro hall f hf
    obtain ⟨d, hd, hf⟩ := mem_flatMap.1 hf
    cases d with
    | enum d =>
      simp only [(hone d hd).2 (hall d hd)] at hf
      cases hf
    | _ => cases hf

end Xdr
