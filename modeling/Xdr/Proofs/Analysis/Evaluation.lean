import Xdr.Proofs.Analysis.References

/-!
# The second step: evaluation

However the constants and enum values are asked for, evaluation finds the number of every name that
has one, and keeps books of the names that are themselves to blame and of the cycles of references:
each is found once.
-/

namespace Xdr

open List

open Ast (Specification)

variable {e : Evaluation} {b c : Binding} {path : List Binding} {blamed : List (Binding × Finding)}

/-- The number of a binding as it is written, before its range is looked at. -/
def Bindings.written (table : Bindings) (n : Nat) (trail : List String) (s : Binding)
    (e : Evaluation) : Evaluation × Option Int :=
  match s.value with
  | none => (e, none)
  | some (.literal _ v _) => (e, some v)
  | some (.reference loc name) =>
    match table.reference name with
    | .bad problem => (e.report ⟨problem, loc⟩, none)
    | .predefined v => (e, some v)
    | .binding target => table.evaluate n (trail ++ [s.name]) target e

def Binding.conclude (s : Binding) (e : Evaluation) (result : Option Int) :
    Evaluation × Option Int :=
  if e.values.lookup s.name = some none then (e, none)
  else
    match result with
    | none => (e.note s.name none, none)
    | some v =>
      match rangeProblem? s v with
      | none => (e.note s.name (some v), some v)
      | some problem =>
        ((e.report ⟨problem, s.value.bind Ast.Value.loc <|> s.span⟩).note s.name none, none)

def cycleOf (trail : List String) (name : String) : List String :=
  trail.dropWhile (· != name) ++ [name]

lemma evaluate_succ (table : Bindings) (n : Nat) (trail : List String) (s : Binding)
    (e : Evaluation) :
    table.evaluate (n + 1) trail s e =
      match e.values.lookup s.name with
      | some known => (e, known)
      | none =>
        if trail.contains s.name then
          ((cycleOf trail s.name).foldl (fun e name => e.note name none)
            (e.report ⟨.cyclicConstant s.name (cycleOf trail s.name), s.span⟩), none)
        else
          s.conclude (table.written n trail s e).1 (table.written n trail s e).2 := by
  rfl

lemma lookup_note (e : Evaluation) (name : String) (value : Option Int) (other : String) :
    (e.note name value).values.lookup other =
      if other = name then some value else e.values.lookup other := by
  simp only [Evaluation.note, lookup_cons]
  by_cases h : other = name
  · simp [h]
  · simp [h, beq_eq_false_iff_ne.2 h]

/-- The names of a cycle, as they are reported: a first name and those behind it. -/
abbrev Ring := Binding × List Binding

def Ring.cycle (r : Ring) : Cycle Binding := ↑(r.1 :: r.2)

/-- The finding of a ring: it names the first name, at the place where that is defined, and shows the
way around. -/
def Ring.finding (r : Ring) : Finding :=
  ⟨.cyclicConstant r.1.name ((r.1 :: r.2).map (·.name) ++ [r.1.name]), r.1.span⟩

/-- The findings are the faults of the names that are to blame, one for each, and the rings of the
cycles of references, one for each. -/
structure RootCauses (spec : Specification) (findings : List Finding)
    (blamed : List (Binding × Finding)) (rings : List Ring) : Prop where
  findings_perm : findings.Perm (blamed.map (·.2) ++ rings.map Ring.finding)
  blamed_once : (blamed.map (·.1)).Nodup
  blamed_iff : ∀ b f, (b, f) ∈ blamed ↔ b ∈ spec.bindings ∧ Blamed spec b f
  rings_once : (rings.map Ring.cycle).Nodup
  rings_iff : ∀ k, k ∈ rings.map Ring.cycle ↔ ReferenceCycle spec k

def Evaluation.Noted (e : Evaluation) (b : Binding) : Prop := e.values.lookup b.name ≠ none

/-- The books of an evaluation under way: they say the same of the names that are noted as
`RootCauses` says of all. -/
structure Books (spec : Specification) (e : Evaluation) (blamed : List (Binding × Finding))
    (rings : List Ring) : Prop where
  findings_perm : e.findings.Perm (blamed.map (·.2) ++ rings.map Ring.finding)
  number : ∀ b ∈ spec.bindings, ∀ r, e.values.lookup b.name = some r →
    ∀ v, r = some v ↔ b.HasNumber spec v
  blamed_once : (blamed.map (·.1)).Nodup
  blamed_sound : ∀ b f, (b, f) ∈ blamed → b ∈ spec.bindings ∧ Blamed spec b f ∧ e.Noted b
  blamed_complete : ∀ b ∈ spec.bindings, e.Noted b → ∀ f, Blamed spec b f → (b, f) ∈ blamed
  rings_once : (rings.map Ring.cycle).Nodup
  rings_sound : ∀ r ∈ rings, ReferenceCycle spec r.cycle ∧ ∀ b ∈ r.cycle, e.Noted b
  rings_complete : ∀ b ∈ spec.bindings, e.Noted b → ∀ k, ReferenceCycle spec k → b ∈ k →
    k ∈ rings.map Ring.cycle
  /-- A name is passed over only after something was found. -/
  failed : ∀ b ∈ spec.bindings, e.values.lookup b.name = some none → e.findings ≠ []

def Accounted (spec : Specification) (e : Evaluation) : Prop :=
  ∃ blamed rings, Books spec e blamed rings

lemma accounted_empty (spec : Specification) : Accounted spec .empty := by
  refine ⟨[], [], ⟨.refl _, ?_, .nil, ?_, ?_, .nil, ?_, ?_, ?_⟩⟩ <;> simp [Evaluation.empty, Evaluation.Noted]

def Evaluation.reportIf (e : Evaluation) (f : Option Finding) : Evaluation := f.elim e e.report

lemma reportIf_findings (e : Evaluation) (f : Option Finding) :
    (e.reportIf f).findings = e.findings ++ f.toList := by
  cases f <;> simp [Evaluation.reportIf, Evaluation.report]

lemma lookup_note_reportIf (e : Evaluation) (f : Option Finding) (name : String) (r : Option Int)
    (other : String) :
    ((e.reportIf f).note name r).values.lookup other =
      if other = name then some r else e.values.lookup other := by
  rw [lookup_note]
  cases f <;> rfl

lemma lookup_foldl_note_none (names : List String) (other : String) :
    ∀ e : Evaluation, (names.foldl (fun e name => e.note name none) e).values.lookup other =
      if other ∈ names then some none else e.values.lookup other := by
  induction names with
  | nil => simp
  | cons name rest ih =>
    intro e
    rw [foldl_cons, ih, lookup_note]
    by_cases hrest : other ∈ rest
    · simp [hrest]
    · by_cases hname : other = name <;> simp [hrest, hname]

lemma findings_foldl_note_none (names : List String) :
    ∀ e : Evaluation, (names.foldl (fun e name => e.note name none) e).findings = e.findings := by
  induction names with
  | nil => exact fun _ => rfl
  | cons name rest ih => exact fun e => ih (e.note name none)

section

variable {spec : Specification} (hnames : DistinctNames spec)
include hnames

lemma Accounted.settle (h : Accounted spec e) (hb : b ∈ spec.bindings) (hfree : ¬ e.Noted b)
    {r : Option Int} {f : Option Finding} (hr : ∀ v, r = some v ↔ b.HasNumber spec v)
    (hf : ∀ g, f = some g ↔ Blamed spec b g) (hcycle : ∀ k, ReferenceCycle spec k → b ∉ k)
    (hfailed : r = none → (e.reportIf f).findings ≠ []) :
    Accounted spec ((e.reportIf f).note b.name r) := by
  obtain ⟨blamed, rings, h⟩ := h
  have hnoted : ∀ c ∈ spec.bindings,
      (((e.reportIf f).note b.name r).Noted c ↔ c = b ∨ e.Noted c) := by
    intro c hc
    rw [Evaluation.Noted, lookup_note_reportIf, Evaluation.Noted]
    by_cases hname : c.name = b.name
    · simp [hnames.eq_of_name hc hb hname]
    · have hne : c ≠ b := fun heq => hname (congrArg _ heq)
      simp [hname, hne]
  refine ⟨blamed ++ f.toList.map (b, ·), rings, ⟨?_, ?_, ?_, ?_, ?_, h.rings_once, ?_, ?_, ?_⟩⟩
  · have hfindings : ((e.reportIf f).note b.name r).findings = e.findings ++ f.toList :=
      reportIf_findings e f
    rw [hfindings, map_append, map_map]
    calc (e.findings ++ f.toList).Perm ((blamed.map (·.2) ++ rings.map Ring.finding) ++ f.toList) :=
          h.findings_perm.append_right _
      _ = blamed.map (·.2) ++ (rings.map Ring.finding ++ f.toList) := append_assoc ..
      _ |>.Perm (blamed.map (·.2) ++ (f.toList ++ rings.map Ring.finding)) :=
          perm_append_comm.append_left _
      _ = blamed.map (·.2) ++ f.toList.map _ ++ rings.map Ring.finding := by
          simp [Function.comp_def]
  · intro c hc r' hlookup v
    rw [lookup_note_reportIf] at hlookup
    split at hlookup
    · rename_i hname
      rw [hnames.eq_of_name hc hb hname, ← Option.some.inj hlookup]
      exact hr v
    · exact h.number c hc r' hlookup v
  · rw [map_append, nodup_append]
    refine ⟨h.blamed_once, by cases f <;> simp, ?_⟩
    rintro c hc d hd rfl
    obtain ⟨⟨c', g⟩, hmem, rfl⟩ := mem_map.1 hc
    have hcb : c' = b := by
      cases f <;> simp at hd
      exact hd
    exact hfree (hcb ▸ (h.blamed_sound c' g hmem).2.2)
  · intro c g hmem
    rcases mem_append.1 hmem with hmem | hmem
    · obtain ⟨hc, hg, hn⟩ := h.blamed_sound c g hmem
      exact ⟨hc, hg, (hnoted c hc).2 (.inr hn)⟩
    · obtain ⟨g', hg', heq⟩ := mem_map.1 hmem
      obtain ⟨rfl, rfl⟩ := Prod.mk.inj heq
      exact ⟨hb, (hf g').1 (Option.mem_toList.1 hg'), (hnoted b hb).2 (.inl rfl)⟩
  · intro c hc hn g hg
    rw [mem_append]
    rcases (hnoted c hc).1 hn with rfl | hn
    · exact .inr (mem_map.2 ⟨g, Option.mem_toList.2 ((hf g).2 hg), rfl⟩)
    · exact .inl (h.blamed_complete c hc hn g hg)
  · intro ring hring
    obtain ⟨hk, hall⟩ := h.rings_sound ring hring
    exact ⟨hk, fun c hc => (hnoted c (hk.mem_bindings hc)).2 (.inr (hall c hc))⟩
  · intro c hc hn k hk hck
    rcases (hnoted c hc).1 hn with rfl | hn
    · exact absurd hck (hcycle k hk)
    · exact h.rings_complete c hc hn k hk hck
  · intro c hc hlookup
    rw [lookup_note_reportIf] at hlookup
    split at hlookup
    · exact hfailed (Option.some.inj hlookup)
    · intro hnil
      rw [Evaluation.note, reportIf_findings] at hnil
      exact h.failed c hc hlookup (append_eq_nil_iff.1 hnil).1

lemma Accounted.close (h : Accounted spec e) {ring : Ring}
    (hring : ReferenceCycle spec ring.cycle) (hfree : ∀ c ∈ ring.cycle, ¬ e.Noted c) :
    Accounted spec (((ring.1 :: ring.2).map (·.name) ++ [ring.1.name]).foldl
      (fun e name => e.note name none) (e.report ring.finding)) := by
  obtain ⟨blamed, rings, h⟩ := h
  have hmem : ∀ c ∈ spec.bindings,
      (c.name ∈ (ring.1 :: ring.2).map (·.name) ++ [ring.1.name] ↔ c ∈ ring.cycle) := by
    intro c hc
    rw [Ring.cycle, Cycle.mem_coe_iff, mem_append, mem_singleton, mem_map]
    constructor
    · rintro (⟨d, hd, hname⟩ | hname)
      · have hd' : d ∈ ring.cycle := Cycle.mem_coe_iff.2 hd
        rwa [← hnames.eq_of_name (hring.mem_bindings hd') hc hname]
      · have hfirst : ring.1 ∈ ring.cycle := Cycle.mem_coe_iff.2 (.head _)
        rw [hnames.eq_of_name hc (hring.mem_bindings hfirst) hname]
        exact .head _ ..
    · exact fun hcr => .inl ⟨c, hcr, rfl⟩
  generalize hnamed : (ring.1 :: ring.2).map (·.name) ++ [ring.1.name] = named at hmem ⊢
  have hlookup := fun other => lookup_foldl_note_none named other (e.report ring.finding)
  have hnoted : ∀ c ∈ spec.bindings, ((named.foldl (fun e name => e.note name none)
      (e.report ring.finding)).Noted c ↔ c ∈ ring.cycle ∨ e.Noted c) := by
    intro c hc
    rw [Evaluation.Noted, hlookup, ← hmem c hc]
    by_cases hcr : c.name ∈ named
    · simp [hcr]
    · simp [hcr, Evaluation.Noted, Evaluation.report]
  refine ⟨blamed, rings ++ [ring], ⟨?_, ?_, h.blamed_once, ?_, ?_, ?_, ?_, ?_, ?_⟩⟩
  · rw [findings_foldl_note_none, map_append, ← append_assoc]
    exact h.findings_perm.append_right _
  · intro c hc r hr v
    rw [hlookup] at hr
    split at hr
    · rename_i hcr
      obtain rfl := Option.some.inj hr
      simpa using hring.not_hasNumber hnames ((hmem c hc).1 hcr) v
    · exact h.number c hc r hr v
  · intro c g hcg
    obtain ⟨hc, hg, hn⟩ := h.blamed_sound c g hcg
    exact ⟨hc, hg, (hnoted c hc).2 (.inr hn)⟩
  · intro c hc hn g hg
    rcases (hnoted c hc).1 hn with hcr | hn
    · exact absurd hg (hring.not_blamed hnames hcr g)
    · exact h.blamed_complete c hc hn g hg
  · rw [map_append, nodup_append]
    refine ⟨h.rings_once, by simp, ?_⟩
    rintro k hk l hl rfl
    obtain ⟨other, hother, rfl⟩ := mem_map.1 hk
    rw [map_singleton, mem_singleton] at hl
    have hfirst : other.1 ∈ other.cycle := Cycle.mem_coe_iff.2 (.head _)
    exact hfree other.1 (hl ▸ hfirst) ((h.rings_sound other hother).2 _ hfirst)
  · intro other hother
    rcases mem_append.1 hother with hother | hother
    · obtain ⟨hk, hall⟩ := h.rings_sound other hother
      exact ⟨hk, fun c hc => (hnoted c (hk.mem_bindings hc)).2 (.inr (hall c hc))⟩
    · obtain rfl := mem_singleton.1 hother
      exact ⟨hring, fun c hc => (hnoted c (hring.mem_bindings hc)).2 (.inl hc)⟩
  · intro c hc hn k hk hck
    rw [map_append, mem_append]
    rcases (hnoted c hc).1 hn with hcr | hn
    · right
      rw [map_singleton, mem_singleton]
      exact cycle_eq_of_mem (leadsTo_rightUnique hnames) hk.2.2 hring.2.2 hk.2.1 hring.2.1 hck hcr
    · exact .inl (h.rings_complete c hc hn k hk hck)
  · rw [findings_foldl_note_none]
    exact fun _ _ _ => append_ne_nil_of_right_ne_nil _ (cons_ne_nil _ _)

lemma Accounted.off_cycle (h : Accounted spec e) (hfree : ¬ e.Noted b) (hbc : LeadsTo spec b c)
    (hn : e.Noted c) : ∀ k, ReferenceCycle spec k → b ∉ k := by
  obtain ⟨blamed, rings, h⟩ := h
  intro k hk hbk
  have hck := mem_of_chain (leadsTo_rightUnique hnames) hk.2.2 hbk hbc
  obtain ⟨ring, hring, rfl⟩ := mem_map.1 (h.rings_complete c hbc.1 hn k hk hck)
  exact hfree ((h.rings_sound ring hring).2 b hbk)

structure Noting (spec : Specification) (b : Binding) (e : Evaluation)
    (r : Evaluation × Option Int) : Prop where
  accounted : Accounted spec r.1
  known : r.1.values.lookup b.name = some r.2
  others : ∀ name, name ≠ b.name → r.1.values.lookup name = e.values.lookup name

lemma Accounted.conclude_some (h : Accounted spec e) (hb : b ∈ spec.bindings)
    (hvalue : b.kind.isValue) (hfree : ¬ e.Noted b) {x : Ast.Value} (hx : b.value = some x)
    {v : Int} (hv : Reaches spec x v) : Noting spec b e (b.conclude e (some v)) := by
  have hcycle : ∀ k, ReferenceCycle spec k → b ∉ k := fun k hk hbk =>
    hk.not_reaches hnames hv b hbk hx
  have hlookup : e.values.lookup b.name = none := not_not.1 hfree
  have hnumber := hasNumber_iff_of_reaches hnames hx hv
  have hblamed := blamed_iff_of_reaches hnames hvalue hx hv
  cases hrange : rangeProblem? b v with
  | none =>
    have hin := (rangeProblem?_eq_none_iff b v).1 hrange
    have hbooks : Accounted spec ((e.reportIf none).note b.name (some v)) := by
      refine h.settle hnames hb hfree (fun w => ?_) (fun g => ?_) hcycle nofun
      · rw [hnumber w, Option.some.injEq, eq_comm]
        exact ⟨fun heq => ⟨heq, hin⟩, fun hw => hw.1⟩
      · simp [hblamed, hrange]
    have hend : b.conclude e (some v) = (e.note b.name (some v), some v) := by
      simp [Binding.conclude, hlookup, hrange]
    rw [hend]
    refine ⟨hbooks, by simp [lookup_note], fun name hname => ?_⟩
    simp [lookup_note, hname]
  | some problem =>
    have hout : ¬ b.InRange v := by
      rw [← rangeProblem?_eq_none_iff, hrange]
      simp
    have hbooks : Accounted spec
        ((e.reportIf (some ⟨problem, x.loc <|> b.span⟩)).note b.name none) := by
      refine h.settle hnames hb hfree (fun w => ?_) (fun g => ?_) hcycle (by simp [reportIf_findings])
      · simp [hnumber, hout]
      · simp [hblamed, hrange, eq_comm]
    have hend : b.conclude e (some v) =
        ((e.report ⟨problem, x.loc <|> b.span⟩).note b.name none, none) := by
      simp [Binding.conclude, hlookup, hrange, hx]
    rw [hend]
    refine ⟨hbooks, by simp [lookup_note], fun name hname => ?_⟩
    simp [lookup_note, hname, Evaluation.report]

lemma Accounted.conclude_none (h : Accounted spec e) (hb : b ∈ spec.bindings)
    (hfree : ¬ e.Noted b) (hnumber : ∀ v, ¬ b.HasNumber spec v) {f : Option Finding}
    (hf : ∀ g, f = some g ↔ Blamed spec b g) (hcycle : ∀ k, ReferenceCycle spec k → b ∉ k)
    (hfound : (e.reportIf f).findings ≠ []) : Noting spec b e (b.conclude (e.reportIf f) none) := by
  have hlookup : e.values.lookup b.name = none := not_not.1 hfree
  have hbooks := h.settle hnames hb hfree (r := none) (by simpa using hnumber) hf hcycle fun _ => hfound
  have hend : b.conclude (e.reportIf f) none = ((e.reportIf f).note b.name none, none) := by
    cases f <;> simp [Binding.conclude, Evaluation.reportIf, Evaluation.report, hlookup]
  rw [hend]
  refine ⟨hbooks, by simp [lookup_note], fun name hname => ?_⟩
  rw [lookup_note_reportIf, if_neg hname]

/-- What evaluating a name achieves while the names of `path` wait for it: the books are in order, the
name is noted with the result, and a waiting name was noted as failed at most. -/
structure Settled (spec : Specification) (path : List Binding) (b : Binding) (e : Evaluation)
    (r : Evaluation × Option Int) : Prop where
  accounted : Accounted spec r.1
  kept : ∀ c, e.Noted c → r.1.Noted c
  known : r.1.values.lookup b.name = some r.2
  waiting : ∀ t ∈ path, r.1.values.lookup t.name = none ∨ r.1.values.lookup t.name = some none

omit hnames in
lemma Noting.settled {f : Evaluation} {r : Evaluation × Option Int} (h : Noting spec b f r)
    (hkept : ∀ c, e.Noted c → f.Noted c)
    (hwaiting : ∀ t ∈ path, f.values.lookup t.name = none ∨ f.values.lookup t.name = some none)
    (hpath : ∀ t ∈ path, t.name ≠ b.name) : Settled spec path b e r where
  accounted := h.accounted
  kept := by
    intro c hc
    by_cases hname : c.name = b.name
    · simp [Evaluation.Noted, hname, h.known]
    · rw [Evaluation.Noted, h.others c.name hname]
      exact hkept c hc
  known := h.known
  waiting := by
    intro t ht
    rw [h.others t.name (hpath t ht)]
    exact hwaiting t ht

structure Waiting (spec : Specification) (path : List Binding) (b : Binding) (e : Evaluation) :
    Prop where
  chain : (path ++ [b]).IsChain (LeadsTo spec)
  nodup : path.Nodup
  defined : path ⊆ spec.bindings
  free : ∀ t ∈ path, ¬ e.Noted t

omit hnames in
lemma Waiting.push (h : Waiting spec path b e) (hb : b ∈ spec.bindings) (hfree : ¬ e.Noted b)
    (hmem : b ∉ path) (hbc : LeadsTo spec b c) :
    Waiting spec (path ++ [b]) c e where
  chain := h.chain.append (isChain_singleton c) (by simpa using hbc)
  nodup := by
    refine nodup_append.2 ⟨h.nodup, by simp, ?_⟩
    rintro t ht _ hs rfl
    exact hmem (mem_singleton.1 hs ▸ ht)
  defined := append_subset.2 ⟨h.defined, by simpa using hb⟩
  free := by
    intro t ht
    rcases mem_append.1 ht with ht | ht
    · exact h.free t ht
    · rw [mem_singleton.1 ht]
      exact hfree

omit hnames in
lemma Waiting.unnoted (h : Waiting spec path b e) :
    ∀ t ∈ path, e.values.lookup t.name = none ∨ e.values.lookup t.name = some none :=
  fun t ht => .inl (not_not.1 (h.free t ht))

lemma Accounted.settled_cycle (h : Accounted spec e) (hwaiting : Waiting spec path b e)
    (hmem : b ∈ path) :
    Settled spec path b e
      ((cycleOf (path.map (·.name)) b.name).foldl (fun e name => e.note name none)
        (e.report ⟨.cyclicConstant b.name (cycleOf (path.map (·.name)) b.name), b.span⟩), none) := by
  obtain ⟨before, rest, rfl⟩ := append_of_mem hmem
  obtain ⟨hchain, hnodup, hpath, hfree⟩ := hwaiting
  have hring : ReferenceCycle spec (Ring.cycle (b, rest)) := by
    refine ⟨by simp [Ring.cycle], ?_, ?_⟩
    · exact Cycle.nodup_coe_iff.2 (nodup_append.1 hnodup).2.1
    · rw [append_assoc] at hchain
      exact hchain.right_of_append
  have hnamed : cycleOf ((before ++ b :: rest).map (·.name)) b.name =
      (b :: rest).map (·.name) ++ [b.name] := by
    have hbefore : ∀ name ∈ before.map (·.name), (name != b.name) := by
      intro name hname
      obtain ⟨t, ht, rfl⟩ := mem_map.1 hname
      rw [bne_iff_ne]
      intro heq
      have htb := hnames.eq_of_name (hpath (mem_append_left _ ht)) (hpath hmem) heq
      exact (nodup_append.1 hnodup).2.2 t ht b (.head _) htb
    rw [cycleOf, map_append, dropWhile_append_of_pos hbefore, map_cons,
      dropWhile_cons_of_neg (by simp)]
  have hincycle : ∀ c ∈ Ring.cycle (b, rest), c ∈ before ++ b :: rest := fun c hc =>
    mem_append_right _ (Cycle.mem_coe_iff.1 hc)
  have hbooks := h.close hnames hring fun c hc => hfree c (hincycle c hc)
  rw [hnamed]
  refine ⟨hbooks, fun c hc => ?_, ?_, fun t ht => ?_⟩
  · rw [Evaluation.Noted, lookup_foldl_note_none]
    split
    · simp
    · exact hc
  · rw [lookup_foldl_note_none, if_pos (by simp)]
  · rw [lookup_foldl_note_none]
    split
    · exact .inr rfl
    · exact .inl (not_not.1 (hfree t ht))

lemma Accounted.conclude_bad (h : Accounted spec e) (hb : b ∈ spec.bindings) (hfree : ¬ e.Noted b)
    {loc : Option Span} {name : String} (hx : b.value = some (.reference loc name))
    {problem : Problem} (href : Bindings.reference spec.bindings name = .bad problem) :
    Noting spec b e (b.conclude (e.report ⟨problem, loc⟩) none) := by
  have hblamed := blamed_iff_of_bad hnames hx href
  have hnone : ∀ v, ¬ b.HasNumber spec v := by
    rintro v ⟨y, hy, hv, -⟩
    rw [hx] at hy
    exact not_reaches_of_bad hnames href loc v (Option.some.inj hy ▸ hv)
  have hoff : ∀ k, ReferenceCycle spec k → b ∉ k := fun k hk hbk =>
    hk.not_blamed hnames hbk _ ((hblamed _).2 rfl)
  exact h.conclude_none hnames hb hfree hnone (f := some ⟨problem, loc⟩)
    (fun g => by rw [hblamed g, Option.some.injEq, eq_comm]) hoff (by simp [reportIf_findings])

lemma Settled.conclude {r : Evaluation × Option Int} (h : Settled spec (path ++ [b]) c e r)
    (hb : b ∈ spec.bindings) (hvalue : b.kind.isValue) {loc : Option Span}
    (hx : b.value = some (.reference loc c.name)) (hc : c ∈ spec.bindings)
    (hcvalue : c.kind.isValue) (hother : ∀ t ∈ path, t.name ≠ b.name) :
    Settled spec path b e (b.conclude r.1 r.2) := by
  have hbc : LeadsTo spec b c := ⟨hc, loc, hx⟩
  have hwaiting : ∀ t ∈ path, r.1.values.lookup t.name = none ∨
      r.1.values.lookup t.name = some none :=
    fun t ht => h.waiting t (mem_append_left _ ht)
  obtain ⟨blamed, rings, hbooks⟩ := h.accounted
  have hnumber : ∀ v, r.2 = some v ↔ c.HasNumber spec v := hbooks.number c hc r.2 h.known
  rcases h.waiting b (by simp) with hopen | hfailed
  · have hfree : ¬ r.1.Noted b := not_not.2 hopen
    cases hresult : r.2 with
    | none =>
      have hnoted : r.1.Noted c := by simp [Evaluation.Noted, h.known]
      have hnone : ∀ v, ¬ c.HasNumber spec v := fun v hv => by
        simp [(hnumber v).2 hv] at hresult
      have hbnone : ∀ v, ¬ b.HasNumber spec v := by
        rintro v ⟨y, hy, hv, -⟩
        rw [hx] at hy
        obtain rfl := Option.some.inj hy
        exact hnone v ((reaches_reference_iff hnames hc loc v).1 hv)
      have hclean := not_blamed_of_leadsTo hnames hbc hcvalue hnone
      exact (h.accounted.conclude_none hnames hb hfree hbnone (f := none)
        (by simpa using hclean) (h.accounted.off_cycle hnames hfree hbc hnoted)
        (hbooks.failed c hc (by rw [h.known, hresult]))).settled h.kept hwaiting hother
    | some v =>
      have hv := (reaches_reference_iff hnames hc loc v).2 ((hnumber v).1 hresult)
      exact (h.accounted.conclude_some hnames hb hvalue hfree hx hv).settled h.kept hwaiting hother
  · -- the name was found on a cycle in the meantime
    have hend : b.conclude r.1 r.2 = (r.1, none) := by
      simp [Binding.conclude, hfailed]
    rw [hend]
    exact ⟨h.accounted, h.kept, hfailed, hwaiting⟩

lemma evaluate_settled (n : Nat) :
    ∀ (path : List Binding) (b : Binding) (e : Evaluation), b ∈ spec.bindings →
      b.kind.isValue → Accounted spec e → Waiting spec path b e →
      spec.bindings.length + 1 ≤ n + path.length →
      Settled spec path b e (Bindings.evaluate spec.bindings n (path.map (·.name)) b e) := by
  induction n with
  | zero =>
    intro path b e _ _ _ hwaiting hlength
    have hle := (hwaiting.nodup.subperm hwaiting.defined).length_le
    omega
  | succ n ih =>
    intro path b e hb hvalue haccounted hwaiting hlength
    rw [evaluate_succ]
    cases hlookup : e.values.lookup b.name with
    | some known => exact ⟨haccounted, fun _ hc => hc, hlookup, hwaiting.unnoted⟩
    | none =>
      have hfree : ¬ e.Noted b := not_not.2 hlookup
      by_cases hmem : b ∈ path
      · have hin : (path.map (·.name)).contains b.name :=
          contains_iff_mem.2 (mem_map_of_mem hmem)
        rw [if_pos hin]
        exact haccounted.settled_cycle hnames hwaiting hmem
      · have hother : ∀ t ∈ path, t.name ≠ b.name := by
          intro t ht hname
          exact hmem (hnames.eq_of_name (hwaiting.defined ht) hb hname ▸ ht)
        have hout : (path.map (·.name)).contains b.name = false := by
          rw [Bool.eq_false_iff, ne_eq, contains_iff_mem, mem_map]
          rintro ⟨t, ht, hname⟩
          exact hother t ht hname
        rw [if_neg (by simp only [hout, Bool.false_eq_true, not_false_eq_true])]
        have hsettled : ∀ {r}, Noting spec b e r → Settled spec path b e r := fun hnoting =>
          hnoting.settled (fun _ hc => hc) hwaiting.unnoted hother
        have hsome := value_isSome_iff hb
        rw [hvalue, Option.isSome_iff_exists] at hsome
        obtain ⟨x, hx⟩ := hsome
        cases x with
        | literal loc v text =>
          simp only [Bindings.written, hx]
          exact hsettled
            (haccounted.conclude_some hnames hb hvalue hfree hx (.literal loc v text))
        | reference loc name =>
          cases href : Bindings.reference spec.bindings name with
          | bad problem =>
            simp only [Bindings.written, hx, href]
            exact hsettled (haccounted.conclude_bad hnames hb hfree hx href)
          | predefined v =>
            simp only [Bindings.written, hx, href]
            exact hsettled (haccounted.conclude_some hnames hb hvalue hfree hx
              (.predefined loc (reference_eq_predefined href)))
          | binding c =>
            obtain ⟨hc, rfl, hcvalue⟩ := reference_eq_binding href
            have htarget := ih (path ++ [b]) c e hc hcvalue haccounted
              (hwaiting.push hb hfree hmem ⟨hc, loc, hx⟩)
              (by simp only [length_append, length_singleton]; omega)
            rw [map_append, map_singleton] at htarget
            simp only [Bindings.written, hx, href]
            exact htarget.conclude hnames hb hvalue hx hc hcvalue hother

lemma ask_accounted (asked : List Binding) :
    ∀ e : Evaluation, Accounted spec e → (∀ b ∈ asked, b ∈ spec.bindings ∧ b.kind.isValue) →
      Accounted spec (Bindings.ask spec.bindings asked e) ∧
        (∀ c, e.Noted c → (Bindings.ask spec.bindings asked e).Noted c) ∧
        ∀ b ∈ asked, (Bindings.ask spec.bindings asked e).Noted b := by
  induction asked with
  | nil => exact fun e he _ => ⟨he, fun _ hc => hc, by simp⟩
  | cons b rest ih =>
    intro e he hasked
    obtain ⟨hb, hvalue⟩ := hasked b (.head _)
    have hstep : Settled spec [] b e (Bindings.valueOf spec.bindings b e) :=
      evaluate_settled hnames (spec.bindings.length + 1) [] b e hb hvalue he
        ⟨isChain_singleton b, .nil, nil_subset _, by simp⟩ (by simp)
    obtain ⟨hend, hkept, hall⟩ := ih _ hstep.accounted fun c hc => hasked c (.tail _ hc)
    refine ⟨hend, fun c hc => hkept c (hstep.kept c hc), fun c hc => ?_⟩
    rcases mem_cons.1 hc with rfl | hc
    · exact hkept c (by simp [Evaluation.Noted, hstep.known])
    · exact hall c hc

omit hnames in
lemma Blamed.isValue (hb : b ∈ spec.bindings) {f : Finding} (hf : Blamed spec b f) :
    b.kind.isValue := by
  rw [← value_isSome_iff hb]
  cases hf with
  | undefined hx | notAValue hx | constantRange _ hx | enumRange _ hx => rw [hx, Option.isSome_some]

omit hnames in
lemma Books.rootCauses {rings : List Ring}
    (h : Books spec e blamed rings) (hall : ∀ b ∈ spec.bindings, b.kind.isValue → e.Noted b) :
    RootCauses spec e.findings blamed rings where
  findings_perm := h.findings_perm
  blamed_once := h.blamed_once
  blamed_iff := by
    intro b f
    constructor
    · intro hmem
      obtain ⟨hb, hf, -⟩ := h.blamed_sound b f hmem
      exact ⟨hb, hf⟩
    · rintro ⟨hb, hf⟩
      exact h.blamed_complete b hb (hall b hb (hf.isValue hb)) f hf
  rings_once := h.rings_once
  rings_iff := by
    intro k
    constructor
    · intro hmem
      obtain ⟨ring, hring, rfl⟩ := mem_map.1 hmem
      exact (h.rings_sound ring hring).1
    · intro hk
      obtain ⟨b, hb⟩ : ∃ b, b ∈ k := by
        induction k using Cycle.induction_on with
        | nil => exact absurd rfl hk.1
        | cons a l _ => exact ⟨a, Cycle.mem_coe_iff.2 (.head _)⟩
      exact h.rings_complete b (hk.mem_bindings hb) (hall b (hk.mem_bindings hb) (hk.isValue hb)) k hk hb

lemma exists_books {first : List Binding}
    (hfirst : ∀ b ∈ first, b ∈ spec.bindings ∧ b.kind.isValue)
    (he : e = Bindings.ask spec.bindings (first ++ spec.bindings.filter (·.kind.isValue)) .empty) :
    ∃ blamed rings, Books spec e blamed rings ∧ RootCauses spec e.findings blamed rings ∧
      ∀ b ∈ spec.bindings, b.kind.isValue → e.Noted b := by
  have hasked : ∀ b ∈ first ++ spec.bindings.filter (·.kind.isValue),
      b ∈ spec.bindings ∧ b.kind.isValue := by
    intro b hb
    rcases mem_append.1 hb with hb | hb
    · exact hfirst b hb
    · exact mem_filter.1 hb
  obtain ⟨⟨blamed, rings, hbooks⟩, -, hall⟩ :=
    ask_accounted hnames _ .empty (accounted_empty spec) hasked
  rw [← he] at hbooks hall
  have hnoted : ∀ b ∈ spec.bindings, b.kind.isValue → e.Noted b := fun b hb hvalue =>
    hall b (mem_append_right _ (mem_filter.2 ⟨hb, hvalue⟩))
  exact ⟨blamed, rings, hbooks, hbooks.rootCauses hnoted, hnoted⟩

end

lemma RootCauses.faults {spec : Specification} {findings : List Finding}
    {rings : List Ring}
    (h : RootCauses spec findings blamed rings) : Faults spec findings := by
  intro f hf
  rcases mem_append.1 (h.findings_perm.mem_iff.1 hf) with hf | hf
  · obtain ⟨⟨b, g⟩, hmem, rfl⟩ := mem_map.1 hf
    obtain ⟨hb, hg⟩ := (h.blamed_iff b g).1 hmem
    cases hg with
    | undefined | notAValue => exact ⟨rfl, trivial⟩
    | constantRange _ hx hv | enumRange _ hx hv =>
      exact ⟨rfl, hv.gives (mem_numbers_of_value hb hx)⟩
  · obtain ⟨ring, -, rfl⟩ := mem_map.1 hf
    exact ⟨rfl, trivial⟩

section

variable {spec : Specification} (hnames : DistinctNames spec)
include hnames

lemma books_evaluateAll :
    ∃ blamed rings, Books spec (Bindings.evaluateAll spec.bindings) blamed rings ∧
      RootCauses spec (Bindings.evaluateAll spec.bindings).findings blamed rings ∧
      ∀ b ∈ spec.bindings, b.kind.isValue →
        (Bindings.evaluateAll spec.bindings).Noted b := by
  have hnone : ∀ b ∈ ([] : List Binding), b ∈ spec.bindings ∧ b.kind.isValue := by simp
  exact exists_books hnames hnone rfl

lemma gives_of_value? (hb : b ∈ spec.bindings) {v : Int}
    (hv : Valuation.value? (Bindings.evaluateAll spec.bindings).values b.name = some v) :
    spec.Gives v := by
  obtain ⟨_, _, hbooks, -, -⟩ := books_evaluateAll hnames
  obtain ⟨x, hx, hreaches, -⟩ := (hbooks.number b hb _ (Option.join_eq_some_iff.1 hv) v).1 rfl
  exact hreaches.gives (mem_numbers_of_value hb hx)

lemma exists_number_of_clean
    (hclean : anyError (Bindings.evaluateAll spec.bindings).findings = false)
    (hb : b ∈ spec.bindings) (hvalue : b.kind.isValue) :
    ∃ v, (Bindings.evaluateAll spec.bindings).values.lookup b.name = some (some v) ∧
      b.HasNumber spec v := by
  obtain ⟨blamed, rings, hbooks, hcauses, hnoted⟩ := books_evaluateAll hnames
  obtain ⟨r, hr⟩ := Option.ne_none_iff_exists'.1 (hnoted b hb hvalue)
  cases r with
  | none => exact absurd (hcauses.faults.eq_nil hclean) (hbooks.failed b hb hr)
  | some v => exact ⟨v, hr, (hbooks.number b hb _ hr v).1 rfl⟩

lemma evaluateAll_clean_iff :
    anyError (Bindings.evaluateAll spec.bindings).findings = false ↔
      ∀ b ∈ spec.bindings, b.kind.isValue → ∃ v, Evaluates spec b v := by
  constructor
  · intro hclean b hb hvalue
    obtain ⟨v, -, x, hx, hv, hrange⟩ := exists_number_of_clean hnames hclean hb hvalue
    exact ⟨v, x, hx, hv.denotes, (rangeProblem?_eq_none_iff b v).2 hrange⟩
  · intro hall
    obtain ⟨blamed, rings, -, hcauses, -⟩ := books_evaluateAll hnames
    have hnumber : ∀ b ∈ spec.bindings, b.kind.isValue → ∃ v, b.HasNumber spec v := by
      simpa only [hasNumber_iff hnames hall] using hall
    have hblamed : blamed = [] := by
      rw [eq_nil_iff_forall_not_mem]
      rintro ⟨b, f⟩ hmem
      obtain ⟨hb, hf⟩ := (hcauses.blamed_iff b f).1 hmem
      obtain ⟨v, hv⟩ := hnumber b hb (hf.isValue hb)
      exact not_blamed_of_hasNumber hnames (hf.isValue hb) hv f hf
    have hrings : rings = [] := by
      rw [eq_nil_iff_forall_not_mem]
      intro ring hmem
      have hk := (hcauses.rings_iff _).1 (mem_map_of_mem hmem)
      have hfirst : ring.1 ∈ ring.cycle := Cycle.mem_coe_iff.2 (.head _)
      obtain ⟨v, hv⟩ := hnumber ring.1 (hk.mem_bindings hfirst) (hk.isValue hfirst)
      exact hk.not_hasNumber hnames hfirst v hv
    have hperm := hcauses.findings_perm
    rw [hblamed, hrings] at hperm
    rw [hperm.eq_nil]
    rfl

lemma value?_eq_some_iff (hclean : anyError (Bindings.evaluateAll spec.bindings).findings = false)
    (hb : b ∈ spec.bindings) (v : Int) :
    Valuation.value? (Bindings.evaluateAll spec.bindings).values b.name = some v ↔
      Evaluates spec b v := by
  obtain ⟨blamed, rings, hbooks, -, -⟩ := books_evaluateAll hnames
  rw [Valuation.value?, Option.join_eq_some_iff,
    ← hasNumber_iff hnames ((evaluateAll_clean_iff hnames).1 hclean)]
  constructor
  · exact fun hlookup => (hbooks.number b hb _ hlookup v).1 rfl
  · intro hv
    have hvalue : b.kind.isValue := by
      obtain ⟨x, hx, -, -⟩ := hv
      rw [← value_isSome_iff hb, hx, Option.isSome_some]
    obtain ⟨w, hlookup, -⟩ := exists_number_of_clean hnames hclean hb hvalue
    rw [hlookup, (hbooks.number b hb _ hlookup v).2 hv]

end

end Xdr
