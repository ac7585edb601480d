import Xdr.Proofs.Analysis.WellFormed

/-!
# Names and references

No name is reported exactly when all names are distinct, and then every name is entered.
-/

namespace Xdr

open List

open Ast (Specification)

lemma anyError_append (xs ys : List Finding) :
    anyError (xs ++ ys) = (anyError xs || anyError ys) := by
  simp [anyError]

lemma anyError_eq_false_iff (xs : List Finding) :
    anyError xs = false ↔ ∀ f ∈ xs, f.isError = false := by
  simp [anyError]

lemma eq_nil_of_no_error {xs : List Finding} (hall : ∀ f ∈ xs, f.isError)
    (h : anyError xs = false) : xs = [] := by
  rw [anyError_eq_false_iff] at h
  cases xs with
  | nil => rfl
  | cons f rest =>
    have htrue := hall f (.head _)
    have hfalse := h f (.head _)
    rw [htrue] at hfalse
    cases hfalse

def Ast.Specification.Gives (spec : Specification) (v : Int) : Prop :=
  (∃ d ∈ spec.definitions, ∃ loc text, .literal loc v text ∈ d.numbers) ∨
    ∃ name, predefined? name = some v

def Problem.Concerns (spec : Specification) : Problem → Prop
  | internalError _ => False
  | constantRange _ v => spec.Gives v
  | enumRange _ v => spec.Gives v
  | lengthRange _ v => spec.Gives v
  | _ => True

def Problem.IsFault (spec : Specification) (p : Problem) : Prop :=
  p.severity = .error ∧ p.Concerns spec

/-- Nothing but errors, each of which is one of the specification. -/
def Faults (spec : Specification) (findings : List Finding) : Prop :=
  ∀ f ∈ findings, f.problem.IsFault spec

namespace Faults

variable {spec : Specification} {xs ys : List Finding}

lemma nil : Faults spec [] := forall_mem_nil _

lemma one {p : Problem} (h : p.IsFault spec) (span : Option Span) : Faults spec [⟨p, span⟩] :=
  forall_mem_singleton.2 h

lemma append (hx : Faults spec xs) (hy : Faults spec ys) : Faults spec (xs ++ ys) :=
  forall_mem_append.2 ⟨hx, hy⟩

lemma eq_nil (h : Faults spec xs) (hclean : anyError xs = false) : xs = [] :=
  eq_nil_of_no_error (fun f hf => decide_eq_true (h f hf).1) hclean

end Faults

lemma predefined?_eq_none_iff (name : String) :
    predefined? name = none ↔ name ∉ predefined.map (·.1) := by
  rw [predefined?, lookup_eq_none_iff]
  constructor
  · intro h hmem
    obtain ⟨p, hp, rfl⟩ := mem_map.1 hmem
    simpa using h p hp
  · intro h p hp
    rw [bne_iff_ne]
    rintro rfl
    exact h (mem_map_of_mem hp)

namespace Bindings

def names (table : Bindings) : List String := table.map (·.name)

lemma find?_eq_none_iff (table : Bindings) (name : String) :
    table.find? name = none ↔ predefined? name = none ∧ name ∉ table.names := by
  unfold find?
  split
  · rename_i h
    rw [Option.isSome_iff_ne_none] at h
    simp [h]
  · rename_i h
    rw [Bool.not_eq_true, Option.isSome_eq_false_iff, Option.isNone_iff_eq_none] at h
    simp only [h, true_and, names, mem_map, not_exists, not_and]
    rw [find?_eq_none]
    simp

def Fresh (table bs : Bindings) : Prop :=
  (∀ b ∈ bs, predefined? b.name = none) ∧ (table ++ bs).names.Nodup

lemma foldl_register (bs : List Binding) :
    ∀ (table : Bindings) (fs : List Finding), table.names.Nodup →
      ((bs.foldl register (table, fs)).2 = [] ↔ fs = [] ∧ Fresh table bs) ∧
        (Fresh table bs → (bs.foldl register (table, fs)).1 = table ++ bs) := by
  induction bs with
  | nil =>
    intro table fs hnodup
    simp [Fresh, hnodup]
  | cons b rest ih =>
    intro table fs hnodup
    have hsplit : table ++ b :: rest = (table ++ [b]) ++ rest := by simp
    rw [foldl_cons]
    cases hfind : table.find? b.name with
    | some previous =>
      -- The name is taken: a finding remains, and the bindings are not fresh.
      have hstep : register (table, fs) b =
          (table, fs ++ [⟨.duplicateName b.name previous.whereabouts, b.span⟩]) := by
        simp only [register, hfind]
      have hstale : ¬ Fresh table (b :: rest) := by
        rintro ⟨hpre, hnames⟩
        have hnone : table.find? b.name = none := by
          rw [find?_eq_none_iff]
          refine ⟨hpre b (.head _), ?_⟩
          intro hmem
          rw [names, map_append, nodup_append] at hnames
          exact hnames.2.2 b.name hmem b.name (by simp) rfl
        rw [hfind] at hnone
        cases hnone
      rw [hstep]
      refine ⟨?_, fun h => absurd h hstale⟩
      rw [(ih table _ hnodup).1]
      simp [hstale]
    | none =>
      have hstep : register (table, fs) b = (table ++ [b], fs) := by
        simp only [register, hfind]
      obtain ⟨hpre, hnew⟩ := (find?_eq_none_iff table b.name).1 hfind
      have hnodup' : (table ++ [b]).names.Nodup := by
        rw [names, map_append, nodup_append]
        refine ⟨hnodup, by simp, ?_⟩
        rintro x hx y hy rfl
        simp only [map_cons, map_nil, mem_singleton] at hy
        exact hnew (hy ▸ hx)
      have hfresh : Fresh (table ++ [b]) rest ↔ Fresh table (b :: rest) := by
        simp [Fresh, hpre]
      rw [hstep, hsplit, ← hfresh]
      exact ih (table ++ [b]) fs hnodup'

lemma repeatedFields_faults {spec : Specification} (owner : String) (seen : List String)
    (ds : List Ast.Declaration) : Faults spec (repeatedFields owner seen ds) := by
  fun_induction repeatedFields owner seen ds with
  | case1 => exact .nil
  | case2 seen d rest _ ih => exact ih
  | case3 seen d rest name _ _ ih => exact forall_mem_cons.2 ⟨⟨rfl, trivial⟩, ih⟩
  | case4 seen d rest name _ _ ih => exact ih

lemma repeatedFields_eq_nil_iff (owner : String) (ds : List Ast.Declaration) :
    ∀ (seen : List String), repeatedFields owner seen ds = [] ↔
      (ds.filterMap (·.name)).Nodup ∧ ∀ name ∈ ds.filterMap (·.name), name ∉ seen := by
  induction ds with
  | nil => simp [repeatedFields]
  | cons d rest ih =>
    intro seen
    cases hname : d.name with
    | none => simp only [repeatedFields, hname, ih, filterMap_cons]
    | some name =>
      by_cases hseen : name ∈ seen
      · simp [repeatedFields, hname, hseen]
      · simp only [repeatedFields, hname, contains_eq_mem, hseen, decide_false,
          Bool.false_eq_true, ite_false, ih, filterMap_cons, nodup_cons, mem_cons,
          not_or, forall_eq_or_imp]
        constructor
        · rintro ⟨hnodup, hrest⟩
          exact ⟨⟨fun hmem => (hrest name hmem).1 rfl, hnodup⟩, not_false,
            fun x hx => (hrest x hx).2⟩
        · rintro ⟨⟨hnew, hnodup⟩, _, hrest⟩
          refine ⟨hnodup, fun x hx => ⟨?_, hrest x hx⟩⟩
          rintro rfl
          exact hnew hx

def DistinctFields : Ast.Definition → Prop
  | .struct d => (d.fields.filterMap (·.name)).Nodup
  | _ => True

lemma fieldFindings_eq_nil_iff (d : Ast.Definition) : fieldFindings d = [] ↔ DistinctFields d := by
  cases d with
  | struct d => simp [fieldFindings, DistinctFields, repeatedFields_eq_nil_iff]
  | _ => simp [fieldFindings, DistinctFields]

lemma foldl_enter (ds : List Ast.Definition) :
    ∀ (table : Bindings) (fs : List Finding), table.names.Nodup →
      ((ds.foldl enter (table, fs)).2 = [] ↔
        fs = [] ∧ Fresh table (ds.flatMap ofDefinition) ∧ ∀ d ∈ ds, DistinctFields d) ∧
      (Fresh table (ds.flatMap ofDefinition) →
        (ds.foldl enter (table, fs)).1 = table ++ ds.flatMap ofDefinition) := by
  induction ds with
  | nil =>
    intro table fs hnodup
    simp [Fresh, hnodup]
  | cons d rest ih =>
    intro table fs hnodup
    obtain ⟨hclean, htable⟩ := foldl_register (ofDefinition d) table fs hnodup
    have hsplit : table ++ (d :: rest).flatMap ofDefinition =
        (table ++ ofDefinition d) ++ rest.flatMap ofDefinition := by simp
    have hfresh : Fresh table ((d :: rest).flatMap ofDefinition) ↔
        Fresh table (ofDefinition d) ∧ Fresh (table ++ ofDefinition d) (rest.flatMap ofDefinition) := by
      unfold Fresh
      rw [hsplit]
      simp only [flatMap_cons, mem_append]
      constructor
      · rintro ⟨hpre, hnames⟩
        have hleft := hnames
        rw [names, map_append, nodup_append] at hleft
        exact ⟨⟨fun b hb => hpre b (.inl hb), hleft.1⟩, fun b hb => hpre b (.inr hb), hnames⟩
      · rintro ⟨⟨hpre, _⟩, hpre', hnames⟩
        exact ⟨fun b hb => hb.elim (hpre b) (hpre' b), hnames⟩
    rw [foldl_cons]
    have henter : enter (table, fs) d =
        (((ofDefinition d).foldl register (table, fs)).1,
          ((ofDefinition d).foldl register (table, fs)).2 ++ fieldFindings d) := rfl
    by_cases hd : Fresh table (ofDefinition d)
    · have hih := ih (table ++ ofDefinition d)
        (((ofDefinition d).foldl register (table, fs)).2 ++ fieldFindings d) hd.2
      rw [henter, htable hd, hsplit, hfresh]
      refine ⟨?_, fun h => hih.2 h.2⟩
      rw [hih.1, append_eq_nil_iff, hclean, fieldFindings_eq_nil_iff]
      simp only [hd, and_true, true_and, mem_cons, forall_eq_or_imp]
      tauto
    · -- A finding of this definition stays to the end.
      have hdirty : (enter (table, fs) d).2 ≠ [] := by
        rw [henter]
        simp only [ne_eq, append_eq_nil_iff, not_and]
        intro hnil
        exact absurd (hclean.1 hnil).2 hd
      have hkeep : ∀ (ds : List Ast.Definition) (state : Bindings × List Finding),
          state.2 ≠ [] → (ds.foldl enter state).2 ≠ [] := by
        intro ds
        induction ds with
        | nil => exact fun _ h => h
        | cons x xs ihx =>
          intro state hstate
          rw [foldl_cons]
          refine ihx _ ?_
          have hgrow : ∀ (bs : List Binding) (st : Bindings × List Finding),
              st.2 ≠ [] → (bs.foldl register st).2 ≠ [] := by
            intro bs
            induction bs with
            | nil => exact fun _ h => h
            | cons b bs ihb =>
              intro st hst
              rw [foldl_cons]
              refine ihb _ ?_
              unfold register
              split <;> simp [hst]
          simp [enter, hgrow (ofDefinition x) state hstate]
      rw [hfresh]
      refine ⟨?_, fun h => absurd h.1 hd⟩
      constructor
      · intro hnil
        exact absurd hnil (hkeep rest _ hdirty)
      · rintro ⟨_, h, _⟩
        exact absurd h.1 hd

lemma collect_faults (spec : Specification) : Faults spec (collect spec).2 := by
  have hregister : ∀ (bs : List Binding) (st : Bindings × List Finding), Faults spec st.2 →
      Faults spec (bs.foldl register st).2 := by
    intro bs
    induction bs with
    | nil => exact fun _ h => h
    | cons b bs ih =>
      intro st h
      refine ih _ ?_
      unfold register
      split
      · exact h.append (.one (by exact ⟨rfl, trivial⟩) _)
      · exact h
  refine List.foldlRecOn spec.definitions enter (b := ([], []))
    (motive := fun st => Faults spec st.2) .nil fun st h d _ => ?_
  refine (hregister _ st h).append ?_
  cases d with
  | struct d => exact repeatedFields_faults _ _ _
  | _ => exact .nil

lemma collect_clean_iff (spec : Ast.Specification) :
    anyError (collect spec).2 = false ↔
      (predefined.map (·.1) ++ spec.bindings.map (·.name)).Nodup ∧
        ∀ d, .struct d ∈ spec.definitions → (d.fields.filterMap (·.name)).Nodup := by
  have hnil : anyError (collect spec).2 = false ↔ (collect spec).2 = [] :=
    ⟨(collect_faults spec).eq_nil, fun h => by rw [h]; rfl⟩
  have hfields : (∀ d ∈ spec.definitions, DistinctFields d) ↔
      ∀ d, .struct d ∈ spec.definitions → (d.fields.filterMap (·.name)).Nodup := by
    constructor
    · exact fun h d hd => h _ hd
    · intro h d hd
      cases d with
      | struct d => exact h d hd
      | _ => trivial
  have hfresh : Fresh [] spec.bindings ↔
      (predefined.map (·.1) ++ spec.bindings.map (·.name)).Nodup := by
    rw [nodup_append]
    simp only [Fresh, nil_append, names]
    have hpre : (predefined.map (·.1)).Nodup := by decide
    simp only [hpre, true_and]
    constructor
    · rintro ⟨h, hn⟩
      refine ⟨hn, ?_⟩
      rintro a ha x hx rfl
      obtain ⟨b, hb, rfl⟩ := mem_map.1 hx
      exact (predefined?_eq_none_iff b.name).1 (h b hb) ha
    · rintro ⟨hn, h⟩
      refine ⟨fun b hb => (predefined?_eq_none_iff b.name).2 fun ha => ?_, hn⟩
      exact h b.name ha b.name (mem_map.2 ⟨b, hb, rfl⟩) rfl
  rw [hnil, collect, (foldl_enter spec.definitions [] [] (by simp [names])).1, ← hfields, ← hfresh]
  simp [Ast.Specification.bindings]

lemma collect_table {spec : Ast.Specification}
    (h : (predefined.map (·.1) ++ spec.bindings.map (·.name)).Nodup) :
    (collect spec).1 = spec.bindings := by
  have hfresh : Fresh [] (spec.definitions.flatMap ofDefinition) := by
    rw [nodup_append] at h
    refine ⟨?_, h.2.1⟩
    intro b hb
    rw [predefined?_eq_none_iff]
    intro hmem
    exact h.2.2 b.name hmem b.name (mem_map.2 ⟨b, hb, rfl⟩) rfl
  have htable := (foldl_enter spec.definitions [] [] (by simp [names])).2 hfresh
  simpa [collect, Ast.Specification.bindings] using htable

end Bindings

/-! ## References of constants -/

variable {b c : Binding} {name : String} {spec : Specification} {x : Ast.Value} {v w : Int}
  {table : Bindings} {p : Problem} {loc : Option Span}

def DistinctNames (spec : Specification) : Prop :=
  (predefined.map (·.1) ++ spec.bindings.map (·.name)).Nodup

namespace DistinctNames

variable {spec : Specification}

lemma names_nodup (h : DistinctNames spec) : (spec.bindings.map (·.name)).Nodup :=
  (nodup_append.1 h).2.1

lemma predefined?_eq_none (h : DistinctNames spec) (hb : b ∈ spec.bindings) :
    predefined? b.name = none := by
  rw [predefined?_eq_none_iff]
  intro hmem
  exact (nodup_append.1 h).2.2 b.name hmem b.name (mem_map_of_mem hb) rfl

lemma eq_of_name (h : DistinctNames spec) (hb : b ∈ spec.bindings) (hc : c ∈ spec.bindings)
    (hname : b.name = c.name) : b = c :=
  inj_on_of_nodup_map h.names_nodup hb hc hname

lemma find?_name (h : DistinctNames spec) (hb : b ∈ spec.bindings) :
    Bindings.find? spec.bindings b.name = some b := by
  have hpre := h.predefined?_eq_none hb
  simp only [Bindings.find?, hpre, Option.isSome_none, Bool.false_eq_true, ite_false]
  cases hfind : spec.bindings.find? (fun c => decide (c.name = b.name)) with
  | none =>
    rw [List.find?_eq_none] at hfind
    simpa using hfind b hb
  | some c =>
    have hc := mem_of_find?_eq_some hfind
    have hname := List.find?_some hfind
    rw [h.eq_of_name hc hb (by simpa using hname)]

end DistinctNames

lemma Bindings.mem_of_find? (hpre : predefined? name = none) (h : table.find? name = some b) :
    b ∈ table ∧ b.name = name := by
  simp only [Bindings.find?, hpre, Option.isSome_none, Bool.false_eq_true, ite_false] at h
  exact ⟨mem_of_find?_eq_some h, by simpa using List.find?_some h⟩

def Evaluates (spec : Specification) (b : Binding) (v : Int) : Prop :=
  ∃ x, b.value = some x ∧ spec.Denotes x v ∧ rangeProblem? b v = none

lemma value_isSome_iff (hb : b ∈ spec.bindings) : b.value.isSome = b.kind.isValue := by
  obtain ⟨d, _, hd⟩ := mem_flatMap.1 hb
  cases d with
  | enum d =>
    rcases mem_cons.1 hd with rfl | hd
    · rfl
    · obtain ⟨x, _, rfl⟩ := mem_map.1 hd
      rfl
  | _ =>
    have hb' := mem_singleton.1 hd
    subst hb'
    rfl

lemma mem_numbers_of_value (hb : b ∈ spec.bindings) (hx : b.value = some x) :
    ∃ d ∈ spec.definitions, x ∈ d.numbers := by
  obtain ⟨d, hd, hmem⟩ := mem_flatMap.1 hb
  refine ⟨d, hd, ?_⟩
  cases d with
  | const d =>
    cases mem_singleton.1 hmem
    cases hx
    exact .head _
  | enum d =>
    rcases mem_cons.1 hmem with rfl | hmem
    · cases hx
    · obtain ⟨v, hv, rfl⟩ := mem_map.1 hmem
      cases hx
      exact mem_append_left _ (mem_map_of_mem hv)
  | _ =>
    cases mem_singleton.1 hmem
    cases hx

lemma Ast.Specification.Denotes.unique (h : DistinctNames spec) (hv : spec.Denotes x v)
    (hw : spec.Denotes x w) : v = w := by
  induction hv with
  | literal loc v text =>
    cases hw
    rfl
  | predefined loc hname =>
    cases hw with
    | predefined _ hname' =>
      rw [hname] at hname'
      exact Option.some.inj hname'
    | named _ hb _ _ =>
      rw [h.predefined?_eq_none hb] at hname
      cases hname
  | named loc hb hx _ ih =>
    rename_i b x' v' _
    generalize hname : b.name = name at hw
    cases hw with
    | predefined _ hname' =>
      rw [← hname, h.predefined?_eq_none hb] at hname'
      cases hname'
    | named _ hc hy hz =>
      have hbc := h.eq_of_name hb hc hname
      subst hbc
      rw [hx] at hy
      exact ih ((Option.some.inj hy) ▸ hz)

/-- The value of the first name is written as the second name. -/
def LeadsTo (spec : Specification) (b c : Binding) : Prop :=
  c ∈ spec.bindings ∧ ∃ loc, b.value = some (.reference loc c.name)

lemma reference_eq_binding (h : Bindings.reference spec.bindings name = .binding c) :
    c ∈ spec.bindings ∧ c.name = name ∧ c.kind.isValue := by
  unfold Bindings.reference at h
  cases hpre : predefined? name with
  | some v => simp [hpre] at h
  | none =>
    cases hfind : Bindings.find? spec.bindings name with
    | none => simp [hpre, hfind] at h
    | some d =>
      simp only [hpre, hfind] at h
      split at h
      · cases h
        obtain ⟨hmem, hname⟩ := Bindings.mem_of_find? hpre hfind
        exact ⟨hmem, hname, by assumption⟩
      · cases h

lemma reference_eq_predefined (h : table.reference name = .predefined v) :
    predefined? name = some v := by
  unfold Bindings.reference at h
  cases hpre : predefined? name with
  | some w =>
    simp only [hpre, Reference.predefined.injEq] at h
    rw [h]
  | none =>
    simp only [hpre] at h
    split at h
    · cases h
    · split at h <;> cases h

lemma isFault_of_bad (h : table.reference name = .bad p) : p.IsFault spec := by
  unfold Bindings.reference at h
  split at h
  · cases h
  · split at h
    · cases h
      exact ⟨rfl, trivial⟩
    · split at h
      · cases h
      · cases h
        exact ⟨rfl, trivial⟩

section

variable {α : Type} {R : α → α → Prop}

lemma exists_cycle_cons {k : Cycle α} {a : α} (h : a ∈ k) : ∃ rest : List α, k = ↑(a :: rest) := by
  induction k using Quotient.inductionOn' with
  | _ l =>
    obtain ⟨before, behind, rfl⟩ := append_of_mem (Cycle.mem_coe_iff.1 h)
    refine ⟨behind ++ before, Cycle.coe_eq_coe.2 ?_⟩
    rw [← cons_append]
    exact isRotated_append

lemma exists_next_of_chain {k : Cycle α} (hk : k.Chain R) {a : α} (h : a ∈ k) :
    ∃ b ∈ k, R a b := by
  obtain ⟨rest, rfl⟩ := exists_cycle_cons h
  rw [Cycle.chain_coe_cons] at hk
  cases rest with
  | nil => exact ⟨a, h, isChain_pair.1 hk⟩
  | cons b rest => exact ⟨b, by simp, (isChain_cons_cons.1 hk).1⟩

lemma exists_previous_of_chain {k : Cycle α} (hk : k.Chain R) {a : α} (h : a ∈ k) :
    ∃ z ∈ k, R z a := by
  obtain ⟨rest, rfl⟩ := exists_cycle_cons h
  rw [Cycle.chain_coe_cons] at hk
  rcases eq_nil_or_concat rest with rfl | ⟨init, z, rfl⟩
  · exact ⟨a, h, isChain_pair.1 hk⟩
  · have hsplit : a :: (init.concat z ++ [a]) = (a :: init) ++ [z, a] := by simp
    rw [hsplit] at hk
    exact ⟨z, by simp, isChain_pair.1 hk.right_of_append⟩

lemma mem_of_chain (hR : Relator.RightUnique R) {k : Cycle α} (hk : k.Chain R) {a b : α}
    (h : a ∈ k) (hab : R a b) : b ∈ k := by
  obtain ⟨c, hc, hac⟩ := exists_next_of_chain hk h
  exact hR hac hab ▸ hc

lemma eq_of_isChain (hR : Relator.RightUnique R) {b : α} :
    ∀ (xs ys : List α) (a : α), b ∉ xs → b ∉ ys → (a :: (xs ++ [b])).IsChain R →
      (a :: (ys ++ [b])).IsChain R → xs = ys := by
  intro xs
  induction xs with
  | nil =>
    intro ys a _ hys hx hy
    cases ys with
    | nil => rfl
    | cons y ys =>
      have hab := isChain_pair.1 hx
      have hay := (isChain_cons_cons.1 hy).1
      exact absurd (hR hab hay ▸ (.head _) ..) hys
  | cons x xs ih =>
    intro ys a hxs hys hx hy
    have hax := isChain_cons_cons.1 hx
    cases ys with
    | nil =>
      have hab := isChain_pair.1 hy
      exact absurd (hR hab hax.1 ▸ (.head _) ..) hxs
    | cons y ys =>
      have hay := isChain_cons_cons.1 hy
      obtain rfl := hR hax.1 hay.1
      rw [ih ys x (not_mem_of_not_mem_cons hxs) (not_mem_of_not_mem_cons hys) hax.2 hay.2]

lemma cycle_eq_of_mem (hR : Relator.RightUnique R) {k l : Cycle α} (hk : k.Chain R)
    (hl : l.Chain R) (hknodup : k.Nodup) (hlnodup : l.Nodup) {a : α} (hak : a ∈ k) (hal : a ∈ l) :
    k = l := by
  obtain ⟨xs, rfl⟩ := exists_cycle_cons hak
  obtain ⟨ys, rfl⟩ := exists_cycle_cons hal
  rw [Cycle.nodup_coe_iff, nodup_cons] at hknodup hlnodup
  rw [eq_of_isChain hR xs ys a hknodup.1 hlnodup.1 hk hl]

end

/-- The numbers that a name may stand for: 32 bits for enum values, 64 bits for constants. -/
def Binding.InRange (b : Binding) (v : Int) : Prop :=
  match b.kind with
  | .enumValue => -(2 ^ 31) ≤ v ∧ v ≤ 2 ^ 31 - 1
  | _ => -(2 ^ 63) ≤ v ∧ v ≤ 2 ^ 63 - 1

section

variable (spec : Specification)

/-- The references from a written value reach a number: they end in a literal or in a predefined
constant, and every name on the way may stand for that number. -/
inductive Reaches : Ast.Value → Int → Prop
  | literal (loc : Option Span) (v : Int) (text : String) : Reaches (.literal loc v text) v
  | predefined (loc : Option Span) {name : String} {v : Int} (h : predefined? name = some v) :
      Reaches (.reference loc name) v
  | named (loc : Option Span) {b : Binding} {x : Ast.Value} {v : Int} (hb : b ∈ spec.bindings)
      (hx : b.value = some x) (h : Reaches x v) (hv : b.InRange v) : Reaches (.reference loc b.name) v

variable {spec} in
lemma Reaches.gives (h : Reaches spec x v) (hx : ∃ d ∈ spec.definitions, x ∈ d.numbers) :
    spec.Gives v := by
  induction h with
  | literal loc v text =>
    obtain ⟨d, hd, hx⟩ := hx
    exact .inl ⟨d, hd, loc, text, hx⟩
  | predefined loc h => exact .inr ⟨_, h⟩
  | named loc hb hvalue _ _ ih => exact ih (mem_numbers_of_value hb hvalue)

def Binding.HasNumber (b : Binding) (v : Int) : Prop :=
  ∃ x, b.value = some x ∧ Reaches spec x v ∧ b.InRange v

/-- What is wrong with a constant or an enum value itself, and not with a name that it leads to. -/
inductive Blamed (b : Binding) : Finding → Prop
  /-- It refers to a name that does not exist. -/
  | undefined {loc : Option Span} {name : String} (hx : b.value = some (.reference loc name))
      (hpre : predefined? name = none) (hnone : ∀ c ∈ spec.bindings, c.name ≠ name) :
      Blamed b ⟨.undefinedSymbol name, loc⟩
  /-- It refers to a type. -/
  | notAValue {loc : Option Span} {c : Binding} (hx : b.value = some (.reference loc c.name))
      (hc : c ∈ spec.bindings) (htype : c.kind.isType = true) : Blamed b ⟨.notAValue c.name c.kind, loc⟩
  | constantRange {x : Ast.Value} {v : Int} (hkind : b.kind = .const) (hx : b.value = some x)
      (hv : Reaches spec x v) (hout : ¬ b.InRange v) :
      Blamed b ⟨.constantRange b.name v, x.loc <|> b.span⟩
  | enumRange {x : Ast.Value} {v : Int} (hkind : b.kind = .enumValue) (hx : b.value = some x)
      (hv : Reaches spec x v) (hout : ¬ b.InRange v) :
      Blamed b ⟨.enumRange b.name v, x.loc <|> b.span⟩

/-- Distinct names of which each refers to the next, and the last to the first. -/
def ReferenceCycle (k : Cycle Binding) : Prop :=
  k ≠ Cycle.nil ∧ k.Nodup ∧ k.Chain (LeadsTo spec)

end

lemma rangeProblem?_eq_none_iff (b : Binding) (v : Int) :
    rangeProblem? b v = none ↔ b.InRange v := by
  unfold rangeProblem? Binding.InRange
  cases b.kind <;> simp [inEnumRange, inConstRange]

lemma rangeProblem?_eq_some_iff (hvalue : b.kind.isValue) (v : Int) (p : Problem) :
    rangeProblem? b v = some p ↔ ¬ b.InRange v ∧
      (b.kind = .const ∧ p = .constantRange b.name v ∨
        b.kind = .enumValue ∧ p = .enumRange b.name v) := by
  rw [← rangeProblem?_eq_none_iff]
  unfold rangeProblem?
  cases hkind : b.kind with
  | const => cases inConstRange v <;> simp [eq_comm (a := p)]
  | enumValue => cases inEnumRange v <;> simp [eq_comm (a := p)]
  | _ => simp [hkind, Kind.isValue, Kind.isType] at hvalue

section

variable {spec : Specification} (hnames : DistinctNames spec)
include hnames

lemma leadsTo_rightUnique : Relator.RightUnique (LeadsTo spec) := by
  rintro b c d ⟨hc, loc, hbc⟩ ⟨hd, loc', hbd⟩
  rw [hbc] at hbd
  injection hbd with hbd
  injection hbd with _ hname
  exact hnames.eq_of_name hc hd hname

lemma reaches_reference_iff (hc : c ∈ spec.bindings) (loc : Option Span) (v : Int) :
    Reaches spec (.reference loc c.name) v ↔ c.HasNumber spec v := by
  constructor
  · intro h
    generalize hname : c.name = name at h
    cases h with
    | predefined _ hpre =>
      rw [← hname, hnames.predefined?_eq_none hc] at hpre
      cases hpre
    | named _ hb hx hv hrange =>
      obtain rfl := hnames.eq_of_name hb hc hname.symm
      exact ⟨_, hx, hv, hrange⟩
  · rintro ⟨x, hx, hv, hrange⟩
    exact .named loc hc hx hv hrange

lemma Reaches.unique (hv : Reaches spec x v) (hw : Reaches spec x w) : v = w := by
  induction hv with
  | literal loc v text =>
    cases hw
    rfl
  | predefined loc hpre =>
    cases hw with
    | predefined _ hpre' =>
      rw [hpre] at hpre'
      exact Option.some.inj hpre'
    | named _ hb _ _ _ =>
      rw [hnames.predefined?_eq_none hb] at hpre
      cases hpre
  | named loc hb hx _ _ ih =>
    obtain ⟨y, hy, hw, -⟩ := (reaches_reference_iff hnames hb loc w).1 hw
    rw [hx] at hy
    exact ih (Option.some.inj hy ▸ hw)

lemma hasNumber_iff_of_reaches (hx : b.value = some x) (hv : Reaches spec x v) (w : Int) :
    b.HasNumber spec w ↔ w = v ∧ b.InRange v := by
  constructor
  · rintro ⟨y, hy, hw, hrange⟩
    rw [hx] at hy
    obtain rfl := Option.some.inj hy
    obtain rfl := hv.unique hnames hw
    exact ⟨rfl, hrange⟩
  · rintro ⟨rfl, hrange⟩
    exact ⟨x, hx, hv, hrange⟩

omit hnames in
lemma Reaches.denotes (h : Reaches spec x v) : spec.Denotes x v := by
  induction h with
  | literal loc v text => exact .literal loc v text
  | predefined loc hpre => exact .predefined loc hpre
  | named loc hb hx _ _ ih => exact .named loc hb hx ih

lemma hasNumber_iff (hall : ∀ b ∈ spec.bindings, b.kind.isValue → ∃ v, Evaluates spec b v)
    (b : Binding) (v : Int) : b.HasNumber spec v ↔ Evaluates spec b v := by
  have hreaches : ∀ {x w}, spec.Denotes x w → Reaches spec x w := by
    intro x w h
    induction h with
    | literal loc v text => exact .literal loc v text
    | predefined loc hpre => exact .predefined loc hpre
    | named loc hb hx hd ih =>
      have hvalue := value_isSome_iff hb
      rw [hx, Option.isSome_some] at hvalue
      obtain ⟨w, y, hy, hw, hrange⟩ := hall _ hb hvalue.symm
      rw [hx] at hy
      obtain rfl := Option.some.inj hy
      rw [hw.unique hnames hd] at hrange
      exact .named loc hb hx ih ((rangeProblem?_eq_none_iff _ _).1 hrange)
  simp only [Binding.HasNumber, Evaluates, rangeProblem?_eq_none_iff]
  exact ⟨fun ⟨x, hx, hv, hrange⟩ => ⟨x, hx, hv.denotes, hrange⟩,
    fun ⟨x, hx, hv, hrange⟩ => ⟨x, hx, hreaches hv, hrange⟩⟩

lemma blamed_iff_of_reaches (hvalue : b.kind.isValue) (hx : b.value = some x)
    (hv : Reaches spec x v) (f : Finding) :
    Blamed spec b f ↔ ∃ p, rangeProblem? b v = some p ∧ f = ⟨p, x.loc <|> b.span⟩ := by
  simp only [rangeProblem?_eq_some_iff hvalue]
  constructor
  · intro hf
    cases hf with
    | undefined hy hpre hnone =>
      rw [hx] at hy
      obtain rfl := Option.some.inj hy
      cases hv with
      | predefined _ hpre' => simp [hpre] at hpre'
      | named _ hb _ _ _ => exact absurd rfl (hnone _ hb)
    | notAValue hy hc htype =>
      rw [hx] at hy
      obtain rfl := Option.some.inj hy
      obtain ⟨y, hy, -, -⟩ := (reaches_reference_iff hnames hc _ v).1 hv
      have hsome := value_isSome_iff hc
      rw [hy, Kind.isValue, htype] at hsome
      cases hsome
    | constantRange hkind hy hw hout =>
      rw [hx] at hy
      obtain rfl := Option.some.inj hy
      obtain rfl := hv.unique hnames hw
      exact ⟨_, ⟨hout, .inl ⟨hkind, rfl⟩⟩, rfl⟩
    | enumRange hkind hy hw hout =>
      rw [hx] at hy
      obtain rfl := Option.some.inj hy
      obtain rfl := hv.unique hnames hw
      exact ⟨_, ⟨hout, .inr ⟨hkind, rfl⟩⟩, rfl⟩
  · rintro ⟨p, ⟨hout, ⟨hkind, rfl⟩ | ⟨hkind, rfl⟩⟩, rfl⟩
    · exact .constantRange hkind hx hv hout
    · exact .enumRange hkind hx hv hout

lemma not_blamed_of_hasNumber (hvalue : b.kind.isValue) (h : b.HasNumber spec v)
    (f : Finding) : ¬ Blamed spec b f := by
  obtain ⟨x, hx, hv, hrange⟩ := h
  rw [blamed_iff_of_reaches hnames hvalue hx hv, (rangeProblem?_eq_none_iff b v).2 hrange]
  simp

omit hnames in
lemma Blamed.of_unreached (hx : b.value = some (.reference loc name))
    (hunreached : ∀ v, ¬ Reaches spec (.reference loc name) v) {f : Finding} (hf : Blamed spec b f)
    :
    ((∀ c ∈ spec.bindings, c.name ≠ name) ∧ f = ⟨.undefinedSymbol name, loc⟩) ∨
      ∃ c ∈ spec.bindings, c.name = name ∧ c.kind.isType ∧ f = ⟨.notAValue name c.kind, loc⟩ := by
  have heq : ∀ {y}, b.value = some y → y = .reference loc name := fun hy =>
    Option.some.inj (hy.symm.trans hx)
  cases hf with
  | undefined hy _ hnone =>
    injection heq hy with hloc hname
    subst hloc hname
    exact .inl ⟨hnone, rfl⟩
  | notAValue hy hc htype =>
    injection heq hy with hloc hname
    subst hloc hname
    exact .inr ⟨_, hc, rfl, htype, rfl⟩
  | constantRange _ hy hv _ | enumRange _ hy hv _ => exact absurd (heq hy ▸ hv) (hunreached _)

lemma not_reaches_of_bad (hbad : Bindings.reference spec.bindings name = .bad p)
    (loc : Option Span) (v : Int) : ¬ Reaches spec (.reference loc name) v := by
  intro hv
  unfold Bindings.reference at hbad
  cases hv with
  | predefined _ hpre => simp [hpre] at hbad
  | named _ hb hy _ _ =>
    have hsome := value_isSome_iff hb
    rw [hy, Option.isSome_some] at hsome
    simp [hnames.predefined?_eq_none hb, hnames.find?_name hb, ← hsome] at hbad

lemma blamed_iff_of_bad (hx : b.value = some (.reference loc name))
    (hbad : Bindings.reference spec.bindings name = .bad p) (f : Finding) :
    Blamed spec b f ↔ f = ⟨p, loc⟩ := by
  have hunreached := not_reaches_of_bad hnames hbad loc
  unfold Bindings.reference at hbad
  cases hpre : predefined? name with
  | some v => exact absurd (.predefined loc hpre) (hunreached v)
  | none =>
    simp only [hpre] at hbad
    cases hfind : Bindings.find? spec.bindings name with
    | none =>
      simp only [hfind, Reference.bad.injEq] at hbad
      subst hbad
      have hnone : ∀ c ∈ spec.bindings, c.name ≠ name := by
        intro c hc hname
        rw [← hname, hnames.find?_name hc] at hfind
        cases hfind
      constructor
      · intro hf
        rcases hf.of_unreached hx hunreached with ⟨-, hf⟩ | ⟨c, hc, hname, -, -⟩
        · exact hf
        · exact absurd hname (hnone c hc)
      · rintro rfl
        exact .undefined hx hpre hnone
    | some c =>
      obtain ⟨hc, rfl⟩ := Bindings.mem_of_find? hpre hfind
      simp only [hfind] at hbad
      split at hbad
      · cases hbad
      · rename_i hvalue
        have htype : c.kind.isType := by simpa [Kind.isValue] using hvalue
        simp only [Reference.bad.injEq] at hbad
        subst hbad
        constructor
        · intro hf
          rcases hf.of_unreached hx hunreached with ⟨hnone, -⟩ | ⟨d, hd, hname, -, hf⟩
          · exact absurd rfl (hnone c hc)
          · rw [hf, hnames.eq_of_name hd hc hname]
        · rintro rfl
          exact .notAValue hx hc htype

lemma not_blamed_of_leadsTo (hbc : LeadsTo spec b c) (hvalue : c.kind.isValue)
    (hnone : ∀ v, ¬ c.HasNumber spec v) (f : Finding) : ¬ Blamed spec b f := by
  obtain ⟨hc, loc, hx⟩ := hbc
  have hunreached : ∀ v, ¬ Reaches spec (.reference loc c.name) v := fun v hv =>
    hnone v ((reaches_reference_iff hnames hc loc v).1 hv)
  intro hf
  rcases hf.of_unreached hx hunreached with ⟨hmissing, -⟩ | ⟨d, hd, hname, htype, -⟩
  · exact hmissing c hc rfl
  · rw [hnames.eq_of_name hd hc hname] at htype
    simp [Kind.isValue, htype] at hvalue

namespace ReferenceCycle

variable {k : Cycle Binding} (hk : ReferenceCycle spec k)
include hk

omit hnames in
lemma mem_bindings (hb : b ∈ k) : b ∈ spec.bindings := by
  obtain ⟨z, -, hzb⟩ := exists_previous_of_chain hk.2.2 hb
  exact hzb.1

omit hnames in
lemma isValue (hb : b ∈ k) : b.kind.isValue := by
  obtain ⟨c, -, -, loc, hx⟩ := exists_next_of_chain hk.2.2 hb
  rw [← value_isSome_iff (hk.mem_bindings hb), hx, Option.isSome_some]

lemma not_reaches (hv : Reaches spec x v) : ∀ b ∈ k, b.value ≠ some x := by
  induction hv with
  | literal loc v text =>
    intro b hb hx
    obtain ⟨c, -, -, loc', hy⟩ := exists_next_of_chain hk.2.2 hb
    rw [hx] at hy
    cases hy
  | predefined loc hpre =>
    intro b hb hx
    obtain ⟨c, -, hc, loc', hy⟩ := exists_next_of_chain hk.2.2 hb
    rw [hx] at hy
    injection hy with hy
    injection hy with _ hname
    rw [hname, hnames.predefined?_eq_none hc] at hpre
    cases hpre
  | named loc hd hx _ _ ih =>
    -- the next name of the cycle is the one that the reference names
    intro b hb hbx
    obtain ⟨c, hck, hc, loc', hy⟩ := exists_next_of_chain hk.2.2 hb
    rw [hbx] at hy
    injection hy with hy
    injection hy with _ hname
    exact ih c hck (hnames.eq_of_name hd hc hname ▸ hx)

lemma not_hasNumber (hb : b ∈ k) (v : Int) : ¬ b.HasNumber spec v := by
  rintro ⟨x, hx, hv, -⟩
  exact hk.not_reaches hnames hv b hb hx

lemma not_blamed (hb : b ∈ k) (f : Finding) : ¬ Blamed spec b f := by
  obtain ⟨c, hc, hbc⟩ := exists_next_of_chain hk.2.2 hb
  exact not_blamed_of_leadsTo hnames hbc (hk.isValue hc) (hk.not_hasNumber hnames hc) f

end ReferenceCycle

end

end Xdr
