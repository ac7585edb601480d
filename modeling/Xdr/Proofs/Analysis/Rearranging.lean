import Xdr.Proofs.Analysis.Reordering
import Xdr.Proofs.Schema.Accepted

/-!
# The order of arms

A specification stays accepted when the arms of its unions are put into another order, and what is
known of its types stays the same but for that order.
-/

namespace Xdr

open List

open Ast (Specification)

variable {r t : Definition}

namespace Ast

/-- Two definitions that are the same but for the order of the arms of a union. -/
inductive Definition.Rearranged : Definition → Definition → Prop
  | same (d : Definition) : Rearranged d d
  | union (d : UnionDef) {arms : List UnionArm} (h : d.arms.Perm arms) :
      Rearranged (.union d) (.union { d with arms })

/-- Two specifications that are the same but for the order of the arms of their unions. -/
def Specification.Rearranged (spec other : Specification) : Prop :=
  List.Forall₂ Definition.Rearranged spec.definitions other.definitions

namespace Definition.Rearranged

variable {d e : Definition} (h : Definition.Rearranged d e)
include h

lemma symm : Definition.Rearranged e d := by
  cases h with
  | same => exact .same _
  | union d h => exact .union { d with arms := _ } h.symm

lemma name_eq : d.name = e.name := by cases h <;> rfl

lemma kind_eq : d.kind = e.kind := by cases h <;> rfl

lemma ofDefinition_eq : Bindings.ofDefinition d = Bindings.ofDefinition e := by cases h <;> rfl

lemma plainDeclarations_eq : d.plainDeclarations = e.plainDeclarations := by cases h <;> rfl

lemma declarations_perm : d.declarations.Perm e.declarations := by
  cases h with
  | same => exact .refl _
  | union d h => exact ((h.map _).append_right _).cons _

lemma eq_of_kind (hkind : e.kind ≠ .union) : d = e := by
  cases h with
  | same => rfl
  | union => exact absurd rfl hkind

end Definition.Rearranged

namespace Specification

variable {spec other : Specification} (h : spec.Rearranged other)
include h

lemma Rearranged.symm : other.Rearranged spec :=
  h.flip.imp fun _ _ hde => hde.symm

lemma Rearranged.exists_mem {e : Definition} (he : e ∈ other.definitions) :
    ∃ d ∈ spec.definitions, Definition.Rearranged d e :=
  exists_of_forall₂_right h he

lemma Rearranged.mem {e : Definition} (hkind : e.kind ≠ .union) (he : e ∈ other.definitions) :
    e ∈ spec.definitions := by
  obtain ⟨d, hd, hde⟩ := h.exists_mem he
  rwa [← hde.eq_of_kind hkind]

lemma Rearranged.bindings_eq : spec.bindings = other.bindings := by
  have hparts : ∀ {xs ys : List Definition}, List.Forall₂ Definition.Rearranged xs ys →
      xs.flatMap Bindings.ofDefinition = ys.flatMap Bindings.ofDefinition := by
    intro xs ys hxy
    induction hxy with
    | nil => rfl
    | cons hde _ ih => rw [flatMap_cons, flatMap_cons, hde.ofDefinition_eq, ih]
  exact hparts h

lemma Rearranged.agrees : Agrees spec other :=
  ⟨fun b => by rw [h.bindings_eq], fun _ => ⟨h.symm.mem nofun, h.mem nofun⟩,
    fun _ => ⟨h.symm.mem nofun, h.mem nofun⟩⟩

lemma HoldsByValue.rearrange {a b : String} (hab : other.HoldsByValue a b) :
    spec.HoldsByValue a b := by
  obtain ⟨e, he, rfl, m, hm, hmention⟩ := hab
  obtain ⟨d, hd, hde⟩ := h.exists_mem he
  exact ⟨d, hd, hde.name_eq, m, hde.declarations_perm.mem_iff.2 hm, hmention⟩

omit h in
lemma UnionWellFormed.rearrange {d : UnionDef} {arms : List UnionArm} (hperm : d.arms.Perm arms)
    (hd : spec.UnionWellFormed d) : spec.UnionWellFormed { d with arms } where
  selects := hd.selects
  labels := fun label hl => hd.labels label ((hperm.flatMap_right _).mem_iff.2 hl)
  distinct := by
    refine ((hperm.flatMap_right _).pairwise_iff ?_).1 hd.distinct
    exact fun hxy v hx hy => hxy v hy hx
  names := fun a ha => hd.names a (((hperm.map _).append_right _).mem_iff.2 ha)

lemma WellFormed.rearrange (hw : spec.WellFormed) : other.WellFormed := by
  have hagrees := h.agrees
  exact {
    names := by rw [← h.bindings_eq]; exact hw.names
    fields := fun d hd => hw.fields d (h.mem nofun hd)
    constants := fun d hd => by
      obtain ⟨v, hv, hrange⟩ := hw.constants d (h.mem nofun hd)
      exact ⟨v, hv.reorder hagrees, hrange⟩
    enumValues := fun d hd x hx => by
      obtain ⟨v, hv, hrange⟩ := hw.enumValues d (h.mem nofun hd) x hx
      exact ⟨v, hv.reorder hagrees, hrange⟩
    enums := fun d hd => (hw.enums d (h.mem nofun hd)).imp fun hxy => hxy.reorder hagrees
    plain := fun e he m hm => by
      obtain ⟨d, hd, hde⟩ := h.exists_mem he
      exact (hw.plain d hd m (hde.plainDeclarations_eq ▸ hm)).reorder hagrees
    arms := fun e he m hm => by
      obtain ⟨d, hd, hde⟩ := h.exists_mem he
      cases hde with
      | same => exact (hw.arms e hd m hm).reorder hagrees
      | union d hperm =>
        exact (hw.arms d hd m (((hperm.map _).append_right _).mem_iff.2 hm)).reorder hagrees
    acyclic := fun name hcycle =>
      hw.acyclic name (hcycle.lift id fun _ _ hab => hab.rearrange h)
    arrays := fun e he m hm => by
      obtain ⟨d, hd, hde⟩ := h.exists_mem he
      exact (hw.arrays d hd m (hde.declarations_perm.mem_iff.2 hm)).reorder hagrees
    unions := fun e he => by
      obtain ⟨d, hd, hde⟩ := h.exists_mem he
      cases hde with
      | same => exact (hw.unions e hd).reorder hagrees
      | union d hperm => exact ((hw.unions d hd).rearrange hperm).reorder hagrees }

end Specification

end Ast

/-- Two definitions of a type that are the same but for the order of the arms of a union. -/
inductive Definition.Rearranged : Definition → Definition → Prop
  | same (d : Definition) : Rearranged d d
  | union (u : UnionType) {arms : List Arm} (h : u.arms.Perm arms) :
      Rearranged (.union u) (.union { u with arms })

lemma Definition.Rearranged.name_eq (h : Definition.Rearranged r t) : r.name = t.name := by
  cases h <;> rfl

lemma Definition.Rearranged.symm (h : Definition.Rearranged r t) : Definition.Rearranged t r := by
  cases h with
  | same => exact .same _
  | union u h => exact .union { u with arms := _ } h.symm

lemma Definition.Rearranged.exists_arms {u : UnionType} (h : Definition.Rearranged (.union u) t) :
    ∃ arms, t = .union { u with arms } ∧ u.arms.Perm arms := by
  cases h with
  | same => exact ⟨u.arms, rfl, .refl _⟩
  | union _ h => exact ⟨_, rfl, h⟩

lemma Resolves.rearrange {spec : Specification} {d e : Ast.Definition} (h : Resolves spec d r)
    (hde : Ast.Definition.Rearranged d e) : ∃ t, Resolves spec e t ∧ Definition.Rearranged r t := by
  cases hde with
  | same => exact ⟨r, h, .same r⟩
  | union d hperm =>
    cases h with
    | @union _ u hname hdisc harms hfall =>
      obtain ⟨arms, hresolves, harms⟩ := perm_comp_forall₂ hperm.symm harms
      exact ⟨.union { u with arms }, .union hname hdisc hresolves hfall, .union u harms.symm⟩

lemma forall₂_of_common {α β γ δ : Type} {R : α → β → Prop} {S : α → γ → Prop} {T : γ → δ → Prop}
    {U : β → δ → Prop} (himp : ∀ {a b c d}, R a b → S a c → T c d → U b d) {as : List α}
    {bs : List β} {cs : List γ} {ds : List δ} (hR : List.Forall₂ R as bs) (hS : List.Forall₂ S as cs)
    (hT : List.Forall₂ T cs ds) : List.Forall₂ U bs ds := by
  induction hR generalizing cs ds with
  | nil =>
    cases hS
    cases hT
    exact .nil
  | cons hab _ ih =>
    cases hS with
    | cons hac hS =>
      cases hT with
      | cons hcd hT => exact .cons (himp hab hac hcd) (ih hS hT)

lemma Elaborated.defs_rearranged {spec other : Specification} {defs others : Definitions}
    (h : Elaborated spec defs) (k : Elaborated other others) (hre : spec.Rearranged other) :
    List.Forall₂ Definition.Rearranged defs others := by
  have htypes : List.Forall₂ Ast.Definition.Rearranged (spec.definitions.filter (·.kind.isType))
      (other.definitions.filter (·.kind.isType)) := by
    refine rel_filter (fun d e hde => ?_) hre
    simp only [hde.kind_eq]
  refine forall₂_of_common (fun hr hde ht => ?_) h.resolves htypes k.resolves
  obtain ⟨t, hother, hrt⟩ := hr.rearrange hde
  rwa [Resolves.rightUnique k.names ht (hother.reorder hre.agrees)]

end Xdr
