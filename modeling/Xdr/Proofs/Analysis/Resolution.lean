import Xdr.Proofs.Analysis.Constants
import Xdr.Proofs.Graphs.Calls

/-!
# The second step: mentioned types

Resolution finds no error exactly when every declaration mentions a type and a length that exist,
and every label is a number.
-/

namespace Xdr

open List Resolved

open Ast (Specification)

open Scope (arm base decl definition definitions fallback number)

variable {d : Ast.Definition} {q : Resolved Definition} {r : Definition}

namespace Resolved

variable {α β : Type}

def Settled (r : Resolved α) : Prop := anyError r.findings = r.value.isNone

lemma settled_ok (a : α) : (ok a).Settled := rfl

lemma settled_bad {p : Problem} {span : Option Span} (h : Finding.isError ⟨p, span⟩) :
    (bad p span : Resolved α).Settled := by
  simp [Settled, bad, anyError, h]

lemma Settled.map {r : Resolved α} (h : r.Settled) (f : α → β) : (r.map f).Settled := by
  rw [Settled, Resolved.map, h]
  simp

lemma Settled.both {a : Resolved α} {b : Resolved β} (ha : a.Settled) (hb : b.Settled) :
    (Resolved.both a b).Settled := by
  rw [Settled, Resolved.both, anyError_append, ha, hb]
  cases a.value <;> cases b.value <;> rfl

lemma settled_all {rs : List (Resolved α)} (h : ∀ r ∈ rs, r.Settled) : (all rs).Settled := by
  induction rs with
  | nil => rfl
  | cons r rest ih =>
    have hr := h r (by simp)
    have hrest := ih fun q hq => h q (.tail r hq)
    exact (hr.both hrest).map _

lemma both_value_eq_some_iff {a : Resolved α} {b : Resolved β} {x : α} {y : β} :
    (both a b).value = some (x, y) ↔ a.value = some x ∧ b.value = some y := by
  unfold both
  cases a.value <;> cases b.value <;> simp

lemma map_value_eq_some_iff {r : Resolved α} {f : α → β} {y : β} :
    (r.map f).value = some y ↔ ∃ x, r.value = some x ∧ f x = y := by
  simp [map]

lemma all_value_eq_some_iff {rs : List (Resolved α)} {xs : List α} :
    (all rs).value = some xs ↔ List.Forall₂ (fun r x => r.value = some x) rs xs := by
  induction rs generalizing xs with
  | nil => simp [all, ok, eq_comm]
  | cons r rest ih =>
    rw [all, map_value_eq_some_iff]
    constructor
    · rintro ⟨⟨x, ys⟩, hboth, rfl⟩
      obtain ⟨hx, hys⟩ := both_value_eq_some_iff.1 hboth
      exact .cons hx (ih.1 hys)
    · intro h
      cases h with
      | cons hx hys => exact ⟨(_, _), both_value_eq_some_iff.2 ⟨hx, ih.2 hys⟩, rfl⟩

lemma exists_all_value_iff (f : α → Resolved β) (xs : List α) :
    (∃ ys, (all (xs.map f)).value = some ys) ↔ ∀ x ∈ xs, ∃ y, (f x).value = some y := by
  simp only [all_value_eq_some_iff, forall₂_map_left_iff]
  induction xs with
  | nil => simp
  | cons x rest ih =>
    rw [forall_mem_cons, ← ih]
    constructor
    · rintro ⟨ys, hys⟩
      cases hys with
      | cons hy hrest => exact ⟨⟨_, hy⟩, _, hrest⟩
    · rintro ⟨⟨y, hy⟩, ys, hys⟩
      exact ⟨y :: ys, .cons hy hys⟩

end Resolved

def Base.written : Base → Ast.Base
  | .builtin b => .builtin b
  | .named name => .named name

lemma Base.written_injective {a b : Base} (h : a.written = b.written) : a = b := by
  cases a <;> cases b <;> simp_all [Base.written]

/-- The declaration `r` has the type and the length that `d` mentions. -/
structure ResolvesDecl (spec : Specification) (d : Ast.Declaration) (r : Decl) : Prop where
  base : d.ty.base = r.base.written
  arity : r.arity = d.ty.arity
  name : r.name = d.name
  length : Option.Rel (fun x (n : Nat) => spec.Denotes x n ∧ n < 2 ^ 32) d.ty.size r.length

/-- The arm `r` has the declaration and the numbers that `a` mentions. -/
structure ResolvesArm (spec : Specification) (a : Ast.UnionArm) (r : Arm) : Prop where
  decl : ResolvesDecl spec a.decl r.decl
  labels : List.Forall₂ (fun x l => spec.Denotes x l.value ∧ l.name = x.name?) a.labels r.labels

/-- The definition `r` says of a type what its text says. -/
inductive Resolves (spec : Specification) : Ast.Definition → Definition → Prop
  | enum {d : Ast.EnumDef} {e : EnumType} (name : e.name = d.name)
      (variants : List.Forall₂ (fun x v => v.1 = x.name ∧ spec.Denotes x.value v.2 ∧
        -(2 ^ 31) ≤ v.2 ∧ v.2 ≤ 2 ^ 31 - 1) d.variants e.variants) :
      Resolves spec (.enum d) (.enum e)
  | struct {d : Ast.StructDef} {s : StructType} (name : s.name = d.name)
      (fields : List.Forall₂ (ResolvesDecl spec) d.fields s.fields) :
      Resolves spec (.struct d) (.struct s)
  | typedef {d : Ast.TypedefDef} {t : TypedefType} (name : t.name = d.name)
      (decl : ResolvesDecl spec d.decl t.decl) : Resolves spec (.typedef d) (.typedef t)
  | union {d : Ast.UnionDef} {u : UnionType} (name : u.name = d.name)
      (discriminant : ResolvesDecl spec d.discriminant u.discriminant)
      (arms : List.Forall₂ (ResolvesArm spec) d.arms u.arms)
      (fallback : Option.Rel (ResolvesDecl spec) d.fallback u.fallback) :
      Resolves spec (.union d) (.union u)

lemma Resolves.name_eq {spec : Specification} (h : Resolves spec d r) : r.name = d.name := by
  cases h <;> assumption

lemma settled_base (scope : Scope) (d : Ast.Declaration) (allowVoid : Bool) :
    (scope.base d allowVoid).Settled := by
  unfold base
  split
  · exact settled_bad rfl
  · exact settled_bad rfl
  · split
    · exact settled_ok _
    · exact settled_bad rfl
  · exact settled_ok _
  · split
    · exact settled_bad rfl
    · split
      · exact settled_ok _
      · exact settled_bad rfl

section

variable {spec : Specification} {values : Valuation} (h : Numbered spec values)
include h

lemma settled_number (x : Ast.Value) :
    (number ⟨spec.bindings, values⟩ x).Settled := by
  by_cases hx : ∃ v, spec.Denotes x v
  · obtain ⟨v, hv⟩ := hx
    rw [number, h.number_of_denotes hv]
    rfl
  · obtain ⟨f, hf, heq⟩ := h.number_of_not_denotes (not_exists.1 hx)
    rw [number, heq]
    simp [Resolved.Settled, anyError, hf]

lemma number_value_eq_some_iff (x : Ast.Value) (v : Int) :
    (number ⟨spec.bindings, values⟩ x).value = some v ↔ spec.Denotes x v := by
  constructor
  · intro hv
    by_cases hx : ∃ w, spec.Denotes x w
    · obtain ⟨w, hw⟩ := hx
      rw [number, h.number_of_denotes hw] at hv
      exact Option.some.inj hv ▸ hw
    · obtain ⟨f, -, heq⟩ := h.number_of_not_denotes (not_exists.1 hx)
      rw [number, heq] at hv
      cases hv
  · intro hv
    rw [number, h.number_of_denotes hv]

lemma find?_isType_iff (name : String) :
    (∃ b, Bindings.find? spec.bindings name = some b ∧ b.kind.isType) ↔
      spec.DefinesType name := by
  constructor
  · rintro ⟨b, hfind, htype⟩
    cases hpre : predefined? name with
    | some v =>
      simp only [Bindings.find?, hpre, Option.isSome_some, ite_true, Option.some.injEq] at hfind
      rw [← hfind] at htype
      cases htype
    | none =>
      obtain ⟨hb, hname⟩ := Bindings.mem_of_find? hpre hfind
      exact ⟨b, hb, hname, htype⟩
  · rintro ⟨b, hb, rfl, htype⟩
    exact ⟨b, h.names.find?_name hb, htype⟩

lemma base_value_eq_some_iff (d : Ast.Declaration) (allowVoid : Bool) (b : Base) :
    (base ⟨spec.bindings, values⟩ d allowVoid).value = some b ↔
      d.ty.base = b.written ∧ spec.Mentionable allowVoid d.ty.base := by
  cases hbase : d.ty.base with
  | inlineBody loc kind =>
    simp [base, hbase, bad, Specification.Mentionable]
  | builtin c =>
    cases b with
    | named name => cases c <;> cases allowVoid <;>
        simp [base, hbase, bad, ok, Base.written]
    | builtin b => cases c <;> cases allowVoid <;>
        simp [base, hbase, bad, ok, Base.written, Specification.Mentionable]
  | named name =>
    have htype := find?_isType_iff h name
    have hvalue : (base ⟨spec.bindings, values⟩ d allowVoid).value = some b ↔
        .named name = b ∧ ∃ s, Bindings.find? spec.bindings name = some s ∧ s.kind.isType := by
      cases hfind : Bindings.find? spec.bindings name with
      | none => simp [base, hbase, hfind, bad]
      | some s =>
        cases hs : s.kind.isType <;>
          simp [base, hbase, hfind, hs, bad, ok]
    rw [hvalue, htype]
    cases b <;> simp [Base.written, Specification.Mentionable]

lemma length_spec (d : Ast.Declaration) :
    (Scope.length ⟨spec.bindings, values⟩ d).Settled ∧
      ∀ n, (Scope.length ⟨spec.bindings, values⟩ d).value = some n ↔
        Option.Rel (fun x (n : Nat) => spec.Denotes x n ∧ n < 2 ^ 32) d.ty.size n := by
  cases hsize : d.ty.size with
  | none =>
    refine ⟨by simp [Scope.length, hsize, settled_ok], fun n => ?_⟩
    cases n <;> simp [Scope.length, hsize, ok]
  | some x =>
    by_cases hx : ∃ v, spec.Denotes x v
    · obtain ⟨v, hv⟩ := hx
      have hnumber : number ⟨spec.bindings, values⟩ x = ⟨[], some v⟩ := by
        rw [number, h.number_of_denotes hv]
      by_cases hrange : inLengthRange v
      · refine ⟨by simp [Scope.length, hsize, hnumber, hrange, Resolved.Settled, anyError], fun n => ?_⟩
        simp only [inLengthRange, Bool.and_eq_true, decide_eq_true_eq] at hrange
        have hcast : ((v.toNat : Nat) : Int) = v := Int.toNat_of_nonneg hrange.1
        have hlength : (Scope.length ⟨spec.bindings, values⟩ d).value = some (some v.toNat) := by
          simp [Scope.length, hsize, hnumber, inLengthRange, hrange]
        rw [hlength, Option.some.injEq]
        constructor
        · rintro rfl
          exact .some ⟨by rwa [hcast], by omega⟩
        · intro hrel
          cases hrel with
          | some hm =>
            have hmv := hm.1.unique h.names hv
            rw [← hmv, Int.toNat_natCast]
      · have hlength : Scope.length ⟨spec.bindings, values⟩ d =
            ⟨[⟨.lengthRange (d.name.getD "None") v, x.loc⟩], none⟩ := by
          simp [Scope.length, hsize, hnumber, hrange]
        rw [hlength]
        refine ⟨rfl, fun n => iff_of_false (by simp) ?_⟩
        intro hrel
        cases hrel with
        | some hm =>
          have hmv := hm.1.unique h.names hv
          have hlt := hm.2
          simp only [inLengthRange, Bool.and_eq_true, decide_eq_true_eq] at hrange
          omega
    · obtain ⟨f, hf, heq⟩ := h.number_of_not_denotes (not_exists.1 hx)
      have hnumber : number ⟨spec.bindings, values⟩ x = ⟨[f], none⟩ := by
        rw [number, heq]
      have hlength : Scope.length ⟨spec.bindings, values⟩ d = ⟨[f], none⟩ := by
        simp [Scope.length, hsize, hnumber]
      rw [hlength]
      refine ⟨by simp [Resolved.Settled, anyError, hf], fun n => iff_of_false (by simp) ?_⟩
      intro hrel
      cases hrel with
      | some hm => exact hx ⟨_, hm.1⟩

lemma settled_decl (d : Ast.Declaration) (allowVoid : Bool) :
    (decl ⟨spec.bindings, values⟩ d allowVoid).Settled := by
  have hbase := settled_base ⟨spec.bindings, values⟩ d allowVoid
  have hlength := (length_spec h d).1
  unfold decl
  split
  · rename_i findings heq
    rw [heq] at hbase
    exact hbase
  · rename_i findings base heq
    rw [heq] at hbase
    simp only [Resolved.Settled, Option.isNone_some] at hbase hlength ⊢
    rw [anyError_append, hbase, hlength, Bool.false_or, Option.isNone_map]

lemma decl_value_eq_some_iff (d : Ast.Declaration) (allowVoid : Bool) (r : Decl) :
    (decl ⟨spec.bindings, values⟩ d allowVoid).value = some r ↔
      spec.Mentionable allowVoid d.ty.base ∧ ResolvesDecl spec d r := by
  have hbase := base_value_eq_some_iff h d allowVoid
  have hlength := (length_spec h d).2
  unfold decl
  split
  · rename_i findings heq
    rw [heq] at hbase
    refine iff_of_false (by simp) ?_
    rintro ⟨hmention, hr⟩
    have := (hbase r.base).2 ⟨hr.base, hmention⟩
    cases this
  · rename_i findings base heq
    rw [heq] at hbase
    obtain ⟨hwritten, hmention⟩ := (hbase base).1 rfl
    rw [Option.map_eq_some_iff]
    constructor
    · rintro ⟨n, hn, rfl⟩
      exact ⟨hmention, hwritten, rfl, rfl, (hlength n).1 hn⟩
    · rintro ⟨-, hr⟩
      refine ⟨r.length, (hlength _).2 hr.length, ?_⟩
      have hb : r.base = base := Base.written_injective (hr.base.symm.trans hwritten)
      rw [← hb, ← hr.arity, ← hr.name]

lemma declares_iff (d : Ast.Declaration) (allowVoid : Bool) :
    spec.Declares allowVoid d ↔
      ∃ r, (decl ⟨spec.bindings, values⟩ d allowVoid).value = some r := by
  simp only [decl_value_eq_some_iff h]
  constructor
  · rintro ⟨hmention, hsize⟩
    obtain ⟨base, hbase⟩ : ∃ base : Base, d.ty.base = base.written := by
      cases hb : d.ty.base with
      | builtin b => exact ⟨.builtin b, rfl⟩
      | named name => exact ⟨.named name, rfl⟩
      | inlineBody loc kind =>
        rw [hb] at hmention
        exact hmention.elim
    obtain ⟨n, hn⟩ : ∃ n, Option.Rel (fun x (n : Nat) => spec.Denotes x n ∧ n < 2 ^ 32)
        d.ty.size n := by
      cases hs : d.ty.size with
      | none => exact ⟨none, .none⟩
      | some x =>
        obtain ⟨v, hv, hlow, hhigh⟩ := hsize x hs
        have hcast : ((v.toNat : Nat) : Int) = v := Int.toNat_of_nonneg hlow
        exact ⟨some v.toNat, .some ⟨by rwa [hcast], by omega⟩⟩
    exact ⟨⟨⟨base, d.ty.arity, n⟩, d.name⟩, hmention, hbase, rfl, rfl, hn⟩
  · rintro ⟨r, hmention, hr⟩
    refine ⟨hmention, ?_⟩
    intro x hx
    have hrel := hr.length
    rw [hx] at hrel
    generalize r.length = n at hrel
    cases hrel with
    | some hm =>
      have hlt := hm.2
      exact ⟨_, hm.1, by omega, by omega⟩

lemma settled_arm (a : Ast.UnionArm) : (arm ⟨spec.bindings, values⟩ a).Settled := by
  refine ((settled_decl h a.decl true).both (settled_all ?_)).map _
  intro r hr
  obtain ⟨x, -, rfl⟩ := mem_map.1 hr
  exact (settled_number h x).map _

lemma settled_fallback (d : Option Ast.Declaration) :
    (fallback ⟨spec.bindings, values⟩ d).Settled := by
  cases d with
  | none => exact settled_ok none
  | some d => exact (settled_decl h d true).map some

lemma settled_definition {r : Resolved Definition}
    (hr : definition ⟨spec.bindings, values⟩ d = some r) : r.Settled := by
  cases d with
  | const d => cases hr
  | enum d =>
    cases hr
    exact settled_ok _
  | struct d =>
    cases hr
    refine (settled_all ?_).map _
    intro q hq
    obtain ⟨f, -, rfl⟩ := mem_map.1 hq
    exact settled_decl h f false
  | typedef d =>
    cases hr
    exact (settled_decl h d.decl false).map _
  | union d =>
    cases hr
    refine ((settled_decl h d.discriminant false).both
      ((settled_all ?_).both (settled_fallback h d.fallback))).map _
    intro q hq
    obtain ⟨a, -, rfl⟩ := mem_map.1 hq
    exact settled_arm h a

lemma resolvesDecl_of_value {d : Ast.Declaration} {allowVoid : Bool} {r : Decl}
    (hr : (decl ⟨spec.bindings, values⟩ d allowVoid).value = some r) :
    ResolvesDecl spec d r :=
  ((decl_value_eq_some_iff h d allowVoid r).1 hr).2

lemma resolvesArm_of_value {a : Ast.UnionArm} {r : Arm}
    (hr : (arm ⟨spec.bindings, values⟩ a).value = some r) : ResolvesArm spec a r := by
  obtain ⟨⟨decl, labels⟩, hboth, rfl⟩ := map_value_eq_some_iff.1 hr
  obtain ⟨hdecl, hlabels⟩ := both_value_eq_some_iff.1 hboth
  refine ⟨resolvesDecl_of_value h hdecl, ?_⟩
  rw [all_value_eq_some_iff, forall₂_map_left_iff] at hlabels
  refine hlabels.imp ?_
  intro x l hl
  obtain ⟨n, hn, rfl⟩ := map_value_eq_some_iff.1 hl
  exact ⟨(number_value_eq_some_iff h x n).1 hn, rfl⟩

lemma resolves_enum {d : Ast.EnumDef} (hd : .enum d ∈ spec.definitions) :
    Resolves spec (.enum d) (.enum (Scope.enum ⟨spec.bindings, values⟩ d)) := by
  refine .enum rfl ?_
  have hvariants : ∀ xs : List Ast.EnumVariant, (∀ x ∈ xs, x ∈ d.variants) →
      List.Forall₂ (fun x (v : String × Int) => v.1 = x.name ∧ spec.Denotes x.value v.2 ∧
        -(2 ^ 31) ≤ v.2 ∧ v.2 ≤ 2 ^ 31 - 1) xs
        (xs.filterMap fun v => (values.value? v.name).map (v.name, ·)) := by
    intro xs
    induction xs with
    | nil => exact fun _ => .nil
    | cons x rest ih =>
      intro hall
      have hmem := mem_bindings_of_variant hd (hall x (by simp))
      obtain ⟨v, hv⟩ := h.total _ hmem rfl
      have hvalue : values.value? x.name = some v := (h.value _ hmem v).2 hv
      rw [filterMap_cons, hvalue]
      exact .cons ⟨rfl, (evaluates_variant_iff _ _ _ _ v).1 hv⟩
        (ih fun y hy => hall y (.tail x hy))
  exact hvariants d.variants fun _ hx => hx

lemma resolves_of_value (hd : d ∈ spec.definitions)
    (hq : definition ⟨spec.bindings, values⟩ d = some q) (hr : q.value = some r) :
    Resolves spec d r := by
  cases d with
  | const d => cases hq
  | enum d =>
    cases hq
    cases hr
    exact resolves_enum h hd
  | struct d =>
    cases hq
    obtain ⟨fields, hfields, rfl⟩ := map_value_eq_some_iff.1 hr
    rw [all_value_eq_some_iff, forall₂_map_left_iff] at hfields
    exact .struct rfl (hfields.imp fun f r hr => resolvesDecl_of_value h hr)
  | typedef d =>
    cases hq
    obtain ⟨decl, hdecl, rfl⟩ := map_value_eq_some_iff.1 hr
    exact .typedef rfl (resolvesDecl_of_value h hdecl)
  | union d =>
    cases hq
    obtain ⟨⟨discriminant, arms, fallback⟩, hboth, rfl⟩ := map_value_eq_some_iff.1 hr
    obtain ⟨hdisc, hrest⟩ := both_value_eq_some_iff.1 hboth
    obtain ⟨harms, hfall⟩ := both_value_eq_some_iff.1 hrest
    rw [all_value_eq_some_iff, forall₂_map_left_iff] at harms
    refine .union rfl (resolvesDecl_of_value h hdisc)
      (harms.imp fun a r hr => resolvesArm_of_value h hr) ?_
    cases hd : d.fallback with
    | none =>
      rw [hd] at hfall
      cases hfall
      exact .none
    | some f =>
      rw [hd] at hfall
      obtain ⟨g, hg, rfl⟩ := map_value_eq_some_iff.1 hfall
      exact .some (resolvesDecl_of_value h hg)

lemma arm_value_iff (a : Ast.UnionArm) :
    (∃ r, (arm ⟨spec.bindings, values⟩ a).value = some r) ↔
      spec.Declares true a.decl ∧ ∀ x ∈ a.labels, ∃ v, spec.Denotes x v := by
  have hlabels := exists_all_value_iff
    (fun x : Ast.Value => (number ⟨spec.bindings, values⟩ x).map fun n =>
      (⟨n, x.name?⟩ : Label)) a.labels
  simp only [map_value_eq_some_iff, number_value_eq_some_iff h] at hlabels
  rw [declares_iff h]
  constructor
  · rintro ⟨r, hr⟩
    obtain ⟨⟨decl, labels⟩, hboth, -⟩ := map_value_eq_some_iff.1 hr
    obtain ⟨hdecl, hall⟩ := both_value_eq_some_iff.1 hboth
    refine ⟨⟨decl, hdecl⟩, fun x hx => ?_⟩
    obtain ⟨l, n, hn, -⟩ := hlabels.1 ⟨labels, hall⟩ x hx
    exact ⟨n, hn⟩
  · rintro ⟨⟨decl, hdecl⟩, hx⟩
    obtain ⟨labels, hall⟩ := hlabels.2 fun x hm => by
      obtain ⟨n, hn⟩ := hx x hm
      exact ⟨_, n, hn, rfl⟩
    exact ⟨_, map_value_eq_some_iff.2
      ⟨(decl, labels), both_value_eq_some_iff.2 ⟨hdecl, hall⟩, rfl⟩⟩

lemma fallback_value_iff (d : Option Ast.Declaration) :
    (∃ r, (fallback ⟨spec.bindings, values⟩ d).value = some r) ↔
      ∀ m ∈ d, spec.Declares true m := by
  cases d with
  | none => simp [fallback, ok]
  | some f =>
    simp only [fallback, map_value_eq_some_iff, Option.mem_some_iff, forall_eq',
      declares_iff h]
    constructor
    · rintro ⟨_, y, hy, -⟩
      exact ⟨y, hy⟩
    · rintro ⟨y, hy⟩
      exact ⟨_, y, hy, rfl⟩

lemma definition_value_iff (hq : definition ⟨spec.bindings, values⟩ d = some q) :
    (∃ r, q.value = some r) ↔
      (∀ m ∈ d.plainDeclarations, spec.Declares false m) ∧
        ∀ u, d = .union u → (∀ m ∈ u.armDeclarations, spec.Declares true m) ∧
          ∀ x ∈ u.labels, ∃ v, spec.Denotes x v := by
  cases d with
  | const d => cases hq
  | enum d =>
    cases hq
    simp [ok, Ast.Definition.plainDeclarations]
  | struct d =>
    cases hq
    simp only [Resolved.map, Option.map_eq_some_iff, Ast.Definition.plainDeclarations, reduceCtorEq,
      false_implies, implies_true, and_true, declares_iff h]
    rw [← exists_all_value_iff]
    constructor
    · rintro ⟨_, ys, hys, -⟩
      exact ⟨ys, hys⟩
    · rintro ⟨ys, hys⟩
      exact ⟨_, ys, hys, rfl⟩
  | typedef d =>
    cases hq
    simp only [Resolved.map, Option.map_eq_some_iff, Ast.Definition.plainDeclarations, reduceCtorEq,
      false_implies, implies_true, and_true, declares_iff h, mem_singleton, forall_eq]
    constructor
    · rintro ⟨_, y, hy, -⟩
      exact ⟨y, hy⟩
    · rintro ⟨y, hy⟩
      exact ⟨_, y, hy, rfl⟩
  | union d =>
    cases hq
    have harms := exists_all_value_iff (arm ⟨spec.bindings, values⟩) d.arms
    simp only [arm_value_iff h] at harms
    have hdeclared : (∀ u, Ast.Definition.union d = .union u →
        (∀ m ∈ u.armDeclarations, spec.Declares true m) ∧ ∀ x ∈ u.labels, ∃ v, spec.Denotes x v) ↔
        (∀ a ∈ d.arms, spec.Declares true a.decl ∧ ∀ x ∈ a.labels, ∃ v, spec.Denotes x v) ∧
          ∀ m ∈ d.fallback, spec.Declares true m := by
      simp only [Ast.Definition.union.injEq, forall_eq', Ast.UnionDef.armDeclarations,
        Ast.UnionDef.labels, mem_append, mem_map, mem_flatMap, Option.mem_toList]
      constructor
      · rintro ⟨hdecls, hlabels⟩
        exact ⟨fun a ha => ⟨hdecls _ (.inl ⟨a, ha, rfl⟩), fun x hx => hlabels x ⟨a, ha, hx⟩⟩,
          fun m hm => hdecls m (.inr hm)⟩
      · rintro ⟨hdecls, hdefault⟩
        refine ⟨?_, fun x ⟨a, ha, hx⟩ => (hdecls a ha).2 x hx⟩
        rintro m (⟨a, ha, rfl⟩ | hm)
        · exact (hdecls a ha).1
        · exact hdefault m hm
    rw [hdeclared, ← harms, ← fallback_value_iff h]
    simp only [Ast.Definition.plainDeclarations, mem_singleton, forall_eq, declares_iff h]
    constructor
    · rintro ⟨r, hr⟩
      obtain ⟨⟨discriminant, arms, fallback⟩, hboth, -⟩ := map_value_eq_some_iff.1 hr
      obtain ⟨hdisc, hrest⟩ := both_value_eq_some_iff.1 hboth
      obtain ⟨hall, hdefault⟩ := both_value_eq_some_iff.1 hrest
      exact ⟨⟨_, hdisc⟩, ⟨_, hall⟩, ⟨_, hdefault⟩⟩
    · rintro ⟨⟨discriminant, hdisc⟩, ⟨arms, hall⟩, fallback, hdefault⟩
      exact ⟨_, map_value_eq_some_iff.2 ⟨(discriminant, arms, fallback),
        both_value_eq_some_iff.2 ⟨hdisc,
          both_value_eq_some_iff.2 ⟨hall, hdefault⟩⟩, rfl⟩⟩

lemma part_clean_iff (hq : definition ⟨spec.bindings, values⟩ d = some q) :
    anyError q.findings = false ↔ ∃ r, q.value = some r := by
  rw [settled_definition h hq, ← Option.not_isSome, Bool.not_eq_false', Option.isSome_iff_exists]

lemma definitions_clean_iff :
    anyError (definitions ⟨spec.bindings, values⟩ spec).2 = false ↔
      (∀ d ∈ spec.definitions, ∀ m ∈ d.plainDeclarations, spec.Declares false m) ∧
        ∀ u, .union u ∈ spec.definitions → (∀ m ∈ u.armDeclarations, spec.Declares true m) ∧
          ∀ x ∈ u.labels, ∃ v, spec.Denotes x v := by
  have hparts : anyError (definitions ⟨spec.bindings, values⟩ spec).2 = false ↔
      ∀ d ∈ spec.definitions, ∀ q, definition ⟨spec.bindings, values⟩ d = some q →
        ∃ r, q.value = some r := by
    simp only [definitions, anyError_eq_false_iff, mem_flatMap, mem_filterMap]
    constructor
    · intro hclean d hd q hq
      rw [← part_clean_iff h hq, anyError_eq_false_iff]
      exact fun f hf => hclean f ⟨q, ⟨d, hd, hq⟩, hf⟩
    · rintro hall f ⟨q, ⟨d, hd, hq⟩, hf⟩
      have hclean := (part_clean_iff h hq).2 (hall d hd q hq)
      exact (anyError_eq_false_iff _).1 hclean f hf
  rw [hparts]
  constructor
  · intro hall
    have hone : ∀ d ∈ spec.definitions, (∀ m ∈ d.plainDeclarations, spec.Declares false m) ∧
        ∀ u, d = .union u → (∀ m ∈ u.armDeclarations, spec.Declares true m) ∧
          ∀ x ∈ u.labels, ∃ v, spec.Denotes x v := by
      intro d hd
      cases hq : definition ⟨spec.bindings, values⟩ d with
      | some q => exact (definition_value_iff h hq).1 (hall d hd q hq)
      | none =>
        cases d with
        | const d => exact ⟨by simp [Ast.Definition.plainDeclarations], by simp⟩
        | _ => cases hq
    exact ⟨fun d hd => (hone d hd).1, fun u hu => (hone _ hu).2 u rfl⟩
  · rintro ⟨hplain, harms⟩ d hd q hq
    rw [definition_value_iff h hq]
    exact ⟨hplain d hd, fun u hu => harms u (hu ▸ hd)⟩

lemma definitions_resolve
    (hclean : anyError (definitions ⟨spec.bindings, values⟩ spec).2 = false) :
    List.Forall₂ (Resolves spec) (spec.definitions.filter (·.kind.isType))
      (definitions ⟨spec.bindings, values⟩ spec).1 := by
  have hall : ∀ d ∈ spec.definitions, ∀ q, definition ⟨spec.bindings, values⟩ d = some q →
      ∃ r, q.value = some r := by
    intro d hd q hq
    rw [← part_clean_iff h hq, anyError_eq_false_iff]
    intro f hf
    exact (anyError_eq_false_iff _).1 hclean f
      (mem_flatMap.2 ⟨q, mem_filterMap.2 ⟨d, hd, hq⟩, hf⟩)
  have hlist : ∀ ds : List Ast.Definition, (∀ d ∈ ds, d ∈ spec.definitions) →
      List.Forall₂ (Resolves spec) (ds.filter (·.kind.isType))
        ((ds.filterMap (definition ⟨spec.bindings, values⟩)).filterMap (·.value)) := by
    intro ds
    induction ds with
    | nil => exact fun _ => .nil
    | cons d rest ih =>
      intro hds
      have hd := hds d (by simp)
      have hrest := ih fun e he => hds e (.tail d he)
      cases hq : definition ⟨spec.bindings, values⟩ d with
      | none =>
        have hkind : d.kind.isType = false := by
          cases d with
          | const d => rfl
          | _ => cases hq
        rw [filterMap_cons_none hq, filter_cons_of_neg (by simp [hkind])]
        exact hrest
      | some q =>
        have hkind : d.kind.isType := by
          cases d with
          | const d => cases hq
          | _ => rfl
        obtain ⟨r, hr⟩ := hall d hd q hq
        rw [filterMap_cons_some hq, filterMap_cons_some hr, filter_cons_of_pos (by simp [hkind])]
        exact .cons (resolves_of_value h hd hq hr) hrest
  exact hlist spec.definitions fun _ hd => hd

end

end Xdr
