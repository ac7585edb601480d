import Xdr.Proofs.Module.Unions

/-!
# Loading under unambiguous names

When the names of a schema are unambiguous, a module that loads has for each type the classes of that
type under its name: no step of loading undoes what the steps before it have done.
-/

namespace Xdr

open Naming List Schema

variable {u : UnionType} {p : UnionPlan} {e : EnumType} {t' : TypeInfo}

structure Globals.HasRecord (g : Globals) (name : String) (fields : List String) : Prop where
  bound : g.names.lookup (globalName name) = some (.cls (.type name))
  cls : ∃ h, g.head? (.type name) = some h ∧ h.Ordinary (.type name) fields ∧ h.kind ≠ .union ∧
    h.kind ≠ .arm

def Globals.Holds (g : Globals) (s : Schema) (t : TypeInfo) : Prop :=
  match t.definition with
  | .enum e => g.HasEnum e
  | .struct d => g.HasRecord t.name (d.plan.map (·.1))
  | .typedef _ => g.HasRecord t.name ["value"]
  | .union u => ∃ p, s.unionPlan? u = some p ∧ g.HasUnion s t.name p

def Schema.boundBy (s : Schema) (t : TypeInfo) : List String :=
  match t.definition with
  | .enum _ => []
  | .union u => ((s.unionPlan? u).map fun p => p.bound t.name).getD [globalName t.name]
  | _ => [globalName t.name]

def Schema.keysOf (s : Schema) (t : TypeInfo) : List ClassKey :=
  match t.definition with
  | .enum _ => []
  | .union u => ((s.unionPlan? u).map fun p => p.keys t.name).getD []
  | _ => [.type t.name]

def ClassKey.belongsTo (name : String) : ClassKey → Prop
  | .type other => other = name
  | .arm other _ => other = name
  | _ => False

lemma Schema.belongsTo_of_mem_keysOf {s : Schema} {t : TypeInfo} {key : ClassKey}
    (h : key ∈ s.keysOf t) : key.belongsTo t.name := by
  unfold keysOf at h
  split at h
  · cases h
  · rename_i u _
    cases hp : s.unionPlan? u with
    | none => simp [hp] at h
    | some p =>
      simp only [hp, Option.map_some, Option.getD_some, UnionPlan.keys] at h
      rcases mem_cons.1 h with rfl | h
      · exact rfl
      · obtain ⟨a, -, rfl⟩ := mem_map.1 h
        exact rfl
  · rw [mem_singleton.1 h]
    exact rfl

namespace Globals

variable {g g' : Globals} {s : Schema} {t : TypeInfo}

lemma Holds.of_changes {names : List String} {keys : List ClassKey} (h : g.Holds s t)
    (hchanges : Changes names keys g g') (hname : globalName t.name ∉ names)
    (hkeys : ∀ key ∈ keys, ¬ key.belongsTo t.name) : g'.Holds s t := by
  have hheads : ∀ key : ClassKey, key.belongsTo t.name → g'.head? key = g.head? key :=
    fun key hkey => hchanges.heads key fun hmem => hkeys key hmem hkey
  have hbound := hchanges.names _ hname
  have hrecord : ∀ fields, g.HasRecord t.name fields → g'.HasRecord t.name fields := by
    intro fields hfields
    obtain ⟨head, hhead, hrest⟩ := hfields.cls
    exact ⟨hbound.trans hfields.bound, head, (hheads (.type t.name) rfl).trans hhead, hrest⟩
  unfold Holds at h ⊢
  split at h <;> rename_i hd
  · exact h.of_changes hchanges (by simpa only [TypeInfo.name, hd, Definition.name] using hname)
  · exact hrecord _ h
  · exact hrecord _ h
  · obtain ⟨p, hp, hunion⟩ := h
    obtain ⟨head, hhead, hhas⟩ := hunion.union
    refine ⟨p, hp, hbound.trans hunion.bound, ⟨head, (hheads (.type t.name) rfl).trans hhead, hhas⟩,
      fun a ha => ?_⟩
    obtain ⟨head, hhead, harm⟩ := hunion.arms a ha
    exact ⟨head, (hheads (.arm t.name a.attr) rfl).trans hhead, harm⟩

end Globals

namespace Schema

variable {s : Schema} {t : TypeInfo}

lemma exports_eq (s : Schema) : s.exports =
    s.constants.map (fun c => globalName c.1) ++ s.enums.flatMap EnumType.exports ++
      (s.types.filter fun t => t.enum?.isNone).map fun t => globalName t.name := by
  unfold exports enums
  congr 1
  · congr 1
    induction s.types with
    | nil => rfl
    | cons t rest ih =>
      rw [flatMap_cons, filterMap_cons]
      cases hd : t.definition <;> simp [TypeInfo.enum?, hd, EnumType.exports, ih]
  · induction s.types with
    | nil => rfl
    | cons t rest ih =>
      have hkind : t.kind = .enum ↔ t.enum?.isNone = false := by
        cases hd : t.definition <;> simp [TypeInfo.kind, Definition.kind, TypeInfo.enum?, hd]
      rw [filterMap_cons, filter_cons, ih]
      by_cases hnone : t.enum?.isNone <;> simp [hkind, hnone]

lemma mem_enums_iff : e ∈ s.enums ↔ ∃ t ∈ s.types, t.definition = .enum e := by
  rw [enums, mem_filterMap]
  refine exists_congr fun t => and_congr_right fun _ => ?_
  cases hd : t.definition <;> simp [TypeInfo.enum?, hd]

lemma enums_names_sublist (types : List TypeInfo) :
    ((types.filterMap TypeInfo.enum?).map EnumType.name).Sublist (types.map (·.name)) := by
  induction types with
  | nil => simp
  | cons t rest ih =>
    cases hd : t.definition with
    | enum e =>
      rw [filterMap_cons_some (by simp [TypeInfo.enum?, hd] : t.enum? = some e), map_cons,
        map_cons, TypeInfo.name, hd]
      exact ih.cons_cons _
    | _ =>
      rw [filterMap_cons_none (by simp [TypeInfo.enum?, hd])]
      exact ih.cons _

lemma enumOf?_mem {shape : Shape} (h : s.enumOf? shape = some e) :
    ∃ t ∈ s.types, t.definition = .enum e := by
  unfold enumOf? at h
  dsimp only at h
  split at h
  · split at h <;> cases h
    rename_i hfind
    exact ⟨_, (mem_of_find? hfind).1, rfl⟩
  · cases h

lemma globalName_mem_exports (ht : t ∈ s.types) : globalName t.name ∈ s.exports := by
  rw [exports_eq]
  cases hd : t.definition with
  | enum e =>
    have he : e ∈ s.enums := mem_enums_iff.2 ⟨t, ht, hd⟩
    refine mem_append_left _ (mem_append_right _ (mem_flatMap.2 ⟨e, he, ?_⟩))
    simp [EnumType.exports, TypeInfo.name, Definition.name, hd]
  | _ =>
    refine mem_append_right _ (mem_map.2 ⟨t, mem_filter.2 ⟨ht, ?_⟩, rfl⟩)
    simp [TypeInfo.enum?, hd]

lemma mem_unionPlans (hs : s.Sound) (ht : t ∈ s.types) (hd : t.definition = .union u)
    (hp : s.unionPlan? u = some p) : (t.name, p) ∈ s.unionPlans := by
  have hplan : s.plan? t.name = some p := (hs.plan?_eq ht hd).trans hp
  exact mem_filterMap.2 ⟨t, ht, by rw [hplan]; rfl⟩

namespace Unambiguous

variable (hn : s.Unambiguous)

include hn

lemma enum_regular (he : e ∈ s.enums) : e.Regular where
  shared v hv := hn.shared _ (by
    simp only [readNames, mem_append, mem_flatMap, mem_map]
    exact .inl (.inl (.inr ⟨e, he, v, hv, rfl⟩)))
  members := hn.members e he

lemma globalName_shared (ht : t ∈ s.types) : (globalName t.name).startsWith "__" = false :=
  hn.shared _ (by
    simp only [readNames, mem_append, mem_map]
    exact .inl (.inl (.inl ⟨t, ht, rfl⟩)))

lemma globalName_ne (hs : s.Sound) (ht : t ∈ s.types) (ht' : t' ∈ s.types) (hne : t ≠ t') :
    globalName t.name ≠ globalName t'.name := by
  have hnodup := hn.exports
  rw [exports_eq, nodup_append, nodup_append] at hnodup
  obtain ⟨⟨-, henums, -⟩, hothers, hdisjoint⟩ := hnodup
  have hname : ∀ {t : TypeInfo} {e}, t.enum? = some e → t.definition = .enum e ∧ e.name = t.name := by
    intro t e he
    cases hd : t.definition <;> simp_all [TypeInfo.enum?, TypeInfo.name, Definition.name]
  have hmem : ∀ {t : TypeInfo} {e}, t ∈ s.types → t.enum? = some e →
      e ∈ s.enums ∧ globalName t.name ∈ e.exports := by
    intro t e ht he
    exact ⟨mem_enums_iff.2 ⟨t, ht, (hname he).1⟩, by simp [EnumType.exports, (hname he).2]⟩
  cases he : t.enum? with
  | none =>
    have hleft : t ∈ s.types.filter fun t => t.enum?.isNone := mem_filter.2 ⟨ht, by simp [he]⟩
    cases he' : t'.enum? with
    | none =>
      have hright : t' ∈ s.types.filter fun t => t.enum?.isNone :=
        mem_filter.2 ⟨ht', by simp [he']⟩
      exact fun heq => hne (inj_on_of_nodup_map hothers hleft hright heq)
    | some e' =>
      obtain ⟨hmem', hexport'⟩ := hmem ht' he'
      refine fun heq => hdisjoint _ (mem_append_right _ ?_) _ (mem_map_of_mem hleft) heq.symm
      exact mem_flatMap.2 ⟨e', hmem', hexport'⟩
  | some e =>
    obtain ⟨hmem₁, hexport⟩ := hmem ht he
    cases he' : t'.enum? with
    | none =>
      have hright : t' ∈ s.types.filter fun t => t.enum?.isNone :=
        mem_filter.2 ⟨ht', by simp [he']⟩
      refine hdisjoint _ (mem_append_right _ ?_) _ (mem_map_of_mem hright)
      exact mem_flatMap.2 ⟨e, hmem₁, hexport⟩
    | some e' =>
      obtain ⟨hmem', hexport'⟩ := hmem ht' he'
      have hdiff : e ≠ e' := by
        rintro rfl
        have hsame : t.name = t'.name := (hname he).2.symm.trans (hname he').2
        exact hne (inj_on_of_nodup_map hs.names ht ht' hsame)
      have : Std.Symm (Function.onFun List.Disjoint EnumType.exports) := ⟨fun _ _ h => h.symm⟩
      have hpair := (nodup_flatMap.1 henums).2.forall hmem₁ hmem' hdiff
      exact fun heq => hpair hexport (heq ▸ hexport')

lemma globalName_notMem_boundBy (hs : s.Sound) (ht : t ∈ s.types) (ht' : t' ∈ s.types)
    (hne : t ≠ t') : globalName t.name ∉ s.boundBy t' := by
  have hown := hn.globalName_ne hs ht ht' hne
  unfold boundBy
  split
  · simp
  · rename_i u hd
    cases hp : s.unionPlan? u with
    | none => simpa using hown
    | some p =>
      simp only [Option.map_some, Option.getD_some, UnionPlan.bound, mem_cons, not_or]
      refine ⟨hown, fun hmem => hn.armClasses _ ?_ (globalName_mem_exports ht)⟩
      exact mem_flatMap.2 ⟨(t'.name, p), mem_unionPlans hs ht' hd hp, hmem⟩
  · simpa using hown

lemma plan_regular (hs : s.Sound) (ht : t ∈ s.types) (hd : t.definition = .union u)
    (hp : s.unionPlan? u = some p) : p.Regular s t.name := by
  have hplan := mem_unionPlans hs ht hd hp
  have harm : ∀ a ∈ p.arms, (ClassKey.arm t.name a.attr).bodyName ∈ s.armClasses := fun a ha =>
    mem_flatMap.2 ⟨_, hplan, mem_map_of_mem ha⟩
  have hbound : s.boundBy t = p.bound t.name := by simp [boundBy, hd, hp]
  refine ⟨unionPlan?_attrs_nodup hp, fun a ha => ⟨?_, ?_, hn.check _ hplan a ha⟩, ?_, ?_, ?_⟩
  · exact hn.fields _ (mem_append_right _
      (mem_flatMap.2 ⟨_, hplan, mem_map_of_mem ha⟩))
  · intro name hname
    refine hn.shared name ?_
    simp only [readNames, mem_append]
    rcases mem_cons.1 hname with rfl | hname
    · exact .inr (mem_flatMap.2 ⟨_, hplan, mem_map_of_mem ha⟩)
    · refine .inl (.inr (mem_flatten.2 ⟨_, mem_append_right _
        (mem_flatMap.2 ⟨_, hplan, mem_map_of_mem ha⟩), hname⟩))
  · intro x hx
    rcases mem_cons.1 hx with rfl | hx
    · exact hn.builtins _ (mem_append_left _ (globalName_mem_exports ht))
    · obtain ⟨a, ha, rfl⟩ := mem_map.1 hx
      exact hn.builtins _ (mem_append_right _ (harm a ha))
  · exact fun a ha heq => hn.armClasses _ (harm a ha) (heq ▸ globalName_mem_exports ht)
  · intro e he
    obtain ⟨firsts, -, hplan⟩ := Option.bind_eq_some_iff.1 hp
    cases hplan
    obtain ⟨t', ht', hd'⟩ := enumOf?_mem he
    rw [← hbound]
    have hne : t' ≠ t := by
      rintro rfl
      rw [hd] at hd'
      cases hd'
    simpa only [TypeInfo.name, hd', Definition.name] using hn.globalName_notMem_boundBy hs ht' ht hne

lemma fields_nodup (ht : t ∈ s.types) {fields : List (String × Form)}
    (hfields : s.fields? t.name = some fields) :
    (fields.map (·.1)).Nodup ∧ ∀ f ∈ fields, f.1.startsWith "__" = false := by
  have hmem : fields.map (·.1) ∈ s.classFields := mem_append_left _
    (mem_filterMap.2 ⟨t, ht, by rw [hfields]; rfl⟩)
  refine ⟨hn.fields _ hmem, fun f hf => hn.shared _ ?_⟩
  simp only [readNames, mem_append]
  exact .inl (.inr (mem_flatten.2 ⟨_, hmem, mem_map_of_mem hf⟩))

end Unambiguous

end Schema

namespace Globals

variable {g g' : Globals} {s : Schema} {c : Config} {t : TypeInfo}

lemma mapError_ok {α ε ε' : Type} {f : ε → ε'} {x : Except ε α} {a : α}
    (h : x.mapError f = .ok a) : x = .ok a := by
  cases x with
  | error e => cases h
  | ok b =>
    cases h
    rfl

def HasEnums (g : Globals) (s : Schema) : Prop := ∀ e ∈ s.enums, g.HasEnum e

lemma HasEnums.labels (h : g.HasEnums s) (hn : s.Unambiguous) (hp : s.unionPlan? u = some p) :
    g.HasLabels p := by
  intro e he
  obtain ⟨firsts, -, hplan⟩ := Option.bind_eq_some_iff.1 hp
  cases hplan
  obtain ⟨t, ht, hd⟩ := enumOf?_mem he
  have hmem : e ∈ s.enums := mem_enums_iff.2 ⟨t, ht, hd⟩
  refine ⟨h e hmem, hn.enum_regular hmem, ?_⟩
  simpa only [TypeInfo.name, hd, Definition.name] using hn.globalName_shared ht

lemma loadType_ok (hs : s.Sound) (hn : s.Unambiguous) (hg : g.Undisturbed) (henums : g.HasEnums s)
    (ht : t ∈ s.types) (h : g.loadType s c t = .ok g') :
    g'.Undisturbed ∧ Changes (s.boundBy t) (s.keysOf t) g g' ∧
      (t.enum? = none → g'.Holds s t) := by
  have hbuiltin : globalName t.name ∉ reliedOn :=
    hn.builtins _ (mem_append_left _ (globalName_mem_exports ht))
  have hrecord : ∀ {kind : ClassKind} {fields : List Field} {names : List (String × Form)},
      s.fields? t.name = some names → fields.map (·.name) = names.map (·.1) →
      kind.isBare = false → kind ≠ .union ∧ kind ≠ .arm →
      (g.loadRecord c t kind fields).mapError LoadFault.statement = .ok g' →
      g'.Undisturbed ∧ Changes [globalName t.name] [.type t.name] g g' ∧
        g'.HasRecord t.name (names.map (·.1)) := by
    intro kind fields names hnames hsame hbare hkind hload
    have hnodup : (fields.map (·.name)).Nodup := hsame ▸ (hn.fields_nodup ht hnames).1
    obtain ⟨head, hhead, hkind', rfl⟩ := loadRecord_ok hg hbare hnodup (mapError_ok hload)
    have hroot : ∀ r, head.key ≠ .root r := by simp [hhead.key]
    have hchanges := (Changes.setHead g hroot).trans
      (Changes.bind (g.setHead head) (globalName t.name) (.cls (.type t.name)))
    rw [hhead.key] at hchanges
    refine ⟨(hg.setHead hhead.readable).bind hbuiltin _, hchanges, lookup_bind_self _ _ _, head, ?_,
      hsame ▸ hhead, by rw [hkind']; exact hkind.1, by rw [hkind']; exact hkind.2⟩
    rw [(Changes.bind _ _ _).heads _ (by simp), head?_setHead _ hroot, if_pos hhead.key.symm]
  have hprivate : ∀ {names : List (String × Form)}, s.fields? t.name = some names →
      ∀ f ∈ names, privateName (globalName t.name) f.1 = f.1 := fun hnames f hf =>
    privateName_of_shared ((hn.fields_nodup ht hnames).2 f hf) _
  have hfind := hs.find?_name ht
  obtain ⟨d, canonical, size, opacity, mentions⟩ := t
  unfold loadType at h
  cases d with
  | enum e =>
    cases h
    exact ⟨hg, .refl g, by simp [TypeInfo.enum?]⟩
  | struct d =>
    have hfields : s.fields? d.name = some (s.fieldsOf d.plan) := hs.fields?_eq ht rfl
    have hsame : (d.plan.map fun x => (⟨privateName (globalName d.name) x.1,
        Emit.typeHint s x.2.toShape, none⟩ : Field)).map (·.name) =
          (s.fieldsOf d.plan).map (·.1) := by
      rw [Schema.fieldsOf, map_map, map_map]
      refine map_congr_left fun f hf => ?_
      exact hprivate hfields (f.1, s.formOf f.2.toShape) (mem_map_of_mem hf)
    dsimp only at h
    split at h
    · cases h
    · obtain ⟨hafter, hchanges, hhas⟩ := hrecord hfields hsame (by split_ifs <;> rfl)
        (by split_ifs <;> simp) h
      refine ⟨hafter, hchanges, fun _ => ?_⟩
      simpa only [Holds, Schema.fieldsOf, map_map, Function.comp_def] using hhas
  | typedef d =>
    have hfind : s.find? d.name = some _ := hfind
    have hfields : s.fields? d.name = some [("value", s.formOf d.decl.toShape)] := by
      simp only [Schema.fields?, hfind]
    have hvalue := hprivate hfields _ (mem_singleton.2 rfl)
    obtain ⟨hafter, hchanges, hhas⟩ := hrecord hfields (by simpa using hvalue) rfl (by simp) h
    exact ⟨hafter, hchanges, fun _ => hhas⟩
  | union u =>
    dsimp only at h
    split at h
    · cases h
    · rename_i p hp
      split_ifs at h
      obtain ⟨hafter, hchanges, hhas⟩ := loadUnion_ok hg (hn.plan_regular hs ht rfl hp)
        (henums.labels hn hp) (mapError_ok h)
      refine ⟨hafter, ?_, fun _ => ⟨p, hp, hhas⟩⟩
      simpa only [Schema.boundBy, Schema.keysOf, hp, Option.map_some, Option.getD_some] using hchanges

structure Loaded (g : Globals) (s : Schema) (types : List TypeInfo) : Prop where
  undisturbed : g.Undisturbed
  enums : g.HasEnums s
  types : ∀ t ∈ types, g.Holds s t

lemma Loaded.run (hs : s.Sound) (hn : s.Unambiguous) {done rest : List TypeInfo}
    (htypes : done ++ rest = s.types) (hg : g.Loaded s done)
    (h : rest.foldlM (loadType s c) g = .ok g') : g'.Loaded s s.types := by
  induction rest generalizing done g with
  | nil =>
    cases h
    rwa [← htypes, append_nil]
  | cons t rest ih =>
    obtain ⟨next, hnext, hrest⟩ := foldlM_cons_ok h
    have hsub : ∀ t' ∈ done ++ t :: rest, t' ∈ s.types := fun t' ht' => htypes ▸ ht'
    have ht := hsub t (by simp)
    have hnew : t ∉ done := by
      have hnodup : (done ++ t :: rest).Nodup := htypes ▸ hs.names.of_map
      exact fun hmem => (nodup_append.1 hnodup).2.2 t hmem t (by simp) rfl
    obtain ⟨hafter, hchanges, hhas⟩ := loadType_ok hs hn hg.undisturbed hg.enums ht hnext
    have hkept : ∀ t' ∈ s.types, t' ≠ t → g.Holds s t' → next.Holds s t' := by
      intro t' ht' hne hholds
      refine hholds.of_changes hchanges (hn.globalName_notMem_boundBy hs ht' ht hne) ?_
      intro key hkey hbelongs
      have hown := belongsTo_of_mem_keysOf hkey
      have hsame : t.name = t'.name := by
        cases key <;> simp_all [ClassKey.belongsTo]
      exact hne (inj_on_of_nodup_map hs.names ht' ht hsame.symm)
    have henums : next.HasEnums s := by
      intro e he
      obtain ⟨t', ht', hd⟩ := mem_enums_iff.1 he
      by_cases hsame : t' = t
      · have hnone : s.boundBy t = [] := by simp [Schema.boundBy, ← hsame, hd]
        exact (hg.enums e he).of_changes hchanges (by simp [hnone])
      · have hholds : g.Holds s t' := by
          rw [Holds, hd]
          exact hg.enums e he
        simpa only [Holds, hd] using hkept t' ht' hsame hholds
    have htypes' : (done ++ [t]) ++ rest = s.types := by simpa using htypes
    refine ih htypes' ⟨hafter, henums, ?_⟩ hrest
    intro t' ht'
    rcases mem_append.1 ht' with hdone | hlast
    · exact hkept t' (hsub t' (by simp [hdone])) (fun heq => hnew (heq ▸ hdone)) (hg.types t' hdone)
    · rw [mem_singleton.1 hlast]
      cases henum : t.enum? with
      | none => exact hhas henum
      | some e =>
        have hd : t.definition = .enum e := by
          cases hd : t.definition <;> simp_all [TypeInfo.enum?]
        rw [Holds, hd]
        exact henums e (mem_enums_iff.2 ⟨t, ht, hd⟩)

lemma undisturbed_initial (lib : Imports.Support) : (initial lib).Undisturbed := by
  refine ⟨?_, by simp [initial], by simp [initial], by simp [initial]⟩
  cases lib <;> decide

lemma undisturbed_constants {g : Globals} (hg : g.Undisturbed) {constants : List (String × Int)}
    (hnames : ∀ x ∈ constants, globalName x.1 ∉ reliedOn) :
    (constants.foldl (fun g x => g.bind (globalName x.1) (.int x.2)) g).Undisturbed ∧
      (constants.foldl (fun g x => g.bind (globalName x.1) (.int x.2)) g).enums = g.enums ∧
      (constants.foldl (fun g x => g.bind (globalName x.1) (.int x.2)) g).heads = g.heads := by
  induction constants generalizing g with
  | nil => exact ⟨hg, rfl, rfl⟩
  | cons x rest ih =>
    obtain ⟨hfirst, hrest⟩ := forall_mem_cons.1 hnames
    exact ih (hg.bind hfirst _) hrest

lemma load_ok {lib : Imports.Support} (hs : s.Sound) (hn : s.Unambiguous)
    (h : load s c lib = .ok g) : g.Loaded s s.types := by
  have hexports := hn.exports
  rw [exports_eq, nodup_append, nodup_append] at hexports
  have hfree : ∀ x ∈ s.exports, x ∉ reliedOn := fun x hx => hn.builtins x (mem_append_left _ hx)
  rw [exports_eq] at hfree
  have hconstantNames : ∀ x ∈ s.constants, globalName x.1 ∉ reliedOn := fun x hx =>
    hfree _ (mem_append_left _ (mem_append_left _ (mem_map_of_mem hx)))
  obtain ⟨hconstants, hnone, hnone'⟩ :=
    undisturbed_constants (undisturbed_initial lib) hconstantNames
  unfold load at h
  dsimp only at h
  split at h
  · cases h
  obtain ⟨enums, henums, h⟩ := bind_ok h
  obtain ⟨types, htypes, h⟩ := bind_ok h
  obtain ⟨hmade, hheads, hnames, hall⟩ := loadEnums_ok (fun e he => hn.enum_regular he)
    hexports.1.2.1 henums
  have hmade : enums.enums = s.enums.map EnumClass.ofMembers := by
    rw [hmade, hnone]
    rfl
  have hafter : enums.Undisturbed := by
    refine ⟨fun x hx => ?_, ?_, ?_, ?_⟩
    · rw [hnames x fun hmem => hfree x (mem_append_left _ (mem_append_right _ hmem)) hx,
        hconstants.builtins x hx]
    · rw [hmade]
      intro e he
      obtain ⟨e, -, rfl⟩ := mem_map.1 he
      rfl
    · rw [hmade, map_map]
      exact hs.names.sublist (enums_names_sublist s.types)
    · rw [hheads, hnone']
      simp [initial]
  have hloaded := Loaded.run hs hn (nil_append s.types) ⟨hafter, hall, by simp⟩ htypes
  cases h
  split_ifs
  · have hchanges := Changes.bind types "__all__" (.list (s.exports.map .str))
    refine ⟨hloaded.undisturbed.bind (by decide) _, fun e he => ?_, fun t ht => ?_⟩
    · obtain ⟨t, ht, hd⟩ := mem_enums_iff.1 he
      have hne := ne_of_shared (hn.globalName_shared ht) (b := "__all__") (by simp)
      refine (hloaded.enums e he).of_changes hchanges ?_
      simpa only [TypeInfo.name, hd, Definition.name, mem_singleton] using hne
    · have hne := ne_of_shared (hn.globalName_shared ht) (b := "__all__") (by simp)
      exact (hloaded.types t ht).of_changes hchanges (by simpa using hne) (by simp)
  · exact hloaded

end Globals

/-! ## Instances of a loaded module -/

variable {vs : Fields} {args : List Value}

namespace Globals

variable {g : Globals}

lemma fillFields_of_length {fields : List Field} (h : args.length = fields.length) :
    fillFields fields args [] = .ok ((fields.map (·.name)).zip args) := by
  induction fields generalizing args with
  | nil =>
    rw [length_nil, length_eq_zero_iff] at h
    subst h
    rfl
  | cons f rest ih =>
    cases args with
    | nil => cases h
    | cons v args =>
      have hrest := ih (Nat.succ.inj h)
      simp only [fillFields, lookup_nil, hrest]
      rfl

lemma forIn_ok {α ε : Type} {l : List α} {body : α → Unit → Except ε (ForInStep Unit)}
    (h : ∀ x ∈ l, body x ⟨⟩ = .ok (.yield ⟨⟩)) : forIn l () body = .ok ⟨⟩ := by
  induction l with
  | nil => rfl
  | cons x rest ih =>
    obtain ⟨hfirst, hrest⟩ := forall_mem_cons.1 h
    rw [forIn_cons, hfirst]
    exact ih hrest

structure Plain (g : Globals) (key : ClassKey) (fields : List String) : Prop where
  head : ∃ h, g.head? key = some h ∧ h.Ordinary key fields
  special : ∀ name, name.startsWith "__" = true → g.special? key name = none

namespace Plain

variable {key : ClassKey} {fields : List String} (hk : g.Plain key fields)

include hk

lemma heeded?_eq_none {name : String} (h : name ∈ heeded) : g.heeded? key name = none := by
  obtain ⟨head, hhead, hordinary⟩ := hk.head
  have hprivate : name.startsWith "__" = true := by
    revert name
    simp [heeded]
  simp [heeded?, hhead, hordinary.numbers name h, hk.special name hprivate]

lemma veil?_eq_none (vs : Fields) : g.veil? (.object key vs) = none :=
  hk.heeded?_eq_none (by decide)

lemma construct_eq (hg : g.Undisturbed) (hshared : ∀ name ∈ fields, name.startsWith "__" = false)
    (hargs : args.length = fields.length) :
    g.construct key args [] = .ok (.object key (fields.zip args)) := by
  obtain ⟨head, hhead, hordinary⟩ := hk.head
  have hlength : args.length = head.fields.length := by
    rw [hargs, ← hordinary.fields, length_map]
  have hobstacle : g.obstacle? head = none := by
    have hnew := hk.special "__new__" (by simp)
    have hkind : head.kind ≠ .union := fun hunion => by
      have hbare := hordinary.bare
      rw [hunion] at hbare
      cases hbare
    simp [obstacle?, hordinary.key, hnew, hkind]
  have hfields : ∀ f ∈ head.fields, unsettable.lookup f.name = none ∧ g.guardFault? head f.name = none := by
    intro f hf
    have hname := hshared f.name (hordinary.fields ▸ mem_map_of_mem hf)
    refine ⟨lookup_of_notMem fun hmem => ?_, ?_⟩
    · have hprivate : ∀ name ∈ unsettable.map (·.1), name.startsWith "__" = true := by simp [unsettable]
      exact ne_of_shared hname (hprivate _ hmem) rfl
    · cases hnumber : head.number? f.name <;> simp [guardFault?, hnumber, hg.isSpoilt_eq]
  have hsetter : g.heeded? key "__setattr__" = none := hk.heeded?_eq_none (by decide)
  simp only [construct, hhead, hobstacle, fillFields_of_length hlength, hsetter, hordinary.fields,
    hordinary.returns, Bool.false_and, Bool.false_eq_true, if_false]
  rw [show (Except.ok (fields.zip args) : Except Fault _) = pure (fields.zip args) from rfl, pure_bind,
    forIn_ok fun f hf => ?_]
  · rfl
  · obtain ⟨hsettable, hguard⟩ := hfields f hf
    simp only [hsettable, hguard, ite_self]
    rfl

lemma attr_eq (hnodup : fields.Nodup) (hvs : vs.map (·.1) = fields) {f : String × Value}
    (hf : f ∈ vs) : g.attr (.object key vs) f.1 = .ok f.2 := by
  have hlookup : vs.lookup f.1 = some f.2 := lookup_of_nodup_map (hvs ▸ hnodup) hf
  simp [attr, hk.veil?_eq_none, attr?, hlookup]

lemma reachable_eq (vs : Fields) (operation : String) :
    g.reachable (.object key vs) operation = .ok () := by
  simp only [reachable, hk.veil?_eq_none]
  rfl

end Plain

lemma HasRecord.plain {name : String} {fields : List String} (h : g.HasRecord name fields) :
    g.Plain (.type name) fields := by
  obtain ⟨head, hhead, hordinary, hunion, -⟩ := h.cls
  exact ⟨⟨head, hhead, hordinary⟩, fun other _ => by simp [special?, hhead, hunion]⟩

section

variable {s : Schema} {name : String} {p : UnionPlan} {a : ArmPlan} (h : g.HasUnion s name p)
  (hp : p.Regular s name) (ha : a ∈ p.arms)

include h ha

lemma HasUnion.attr_eq : g.attr (.cls (.type name)) a.attr = .ok (.cls (.arm name a.attr)) := by
  obtain ⟨union, hunion, hown⟩ := h.union
  have hlookup := hown.arms a ha
  have hnumber : union.number? a.attr = none := by simp [ClassHead.number?, hlookup]
  have hfound : g.attr? (.cls (.type name)) a.attr = some (.cls (.arm name a.attr)) := by
    simp [attr?, classAttr?, enumOf?, hunion, headAttr?, hnumber, hlookup]
  simp [attr, veil?, hfound]

include hp

lemma HasUnion.plain :
    g.Plain (.arm name a.attr) ((s.payload a).map (·.1) ++ [p.discField]) := by
  obtain ⟨head, hhead, harm⟩ := h.arms a ha
  obtain ⟨union, hunion, hown⟩ := h.union
  refine ⟨⟨head, hhead, harm.ordinary⟩, fun other hother => ?_⟩
  have hnone := hown.lookup_private (fun b hb => (hp.arms b hb).shared _ (by simp)) hother
  simp [special?, hunion, hnone]

lemma HasUnion.check_eq (hvs : vs.lookup checkMethod = none) :
    g.attr (.object (.arm name a.attr) vs) checkMethod = .ok (.thing "function") := by
  obtain ⟨head, hhead, harm⟩ := h.arms a ha
  obtain ⟨union, hunion, hown⟩ := h.union
  have hfrom : union.own.lookup checkMethod = none := by
    refine lookup_of_notMem fun hmem => ?_
    obtain ⟨x, hx, heq⟩ := mem_map.1 hmem
    rcases hown.own x hx with hlayout | ⟨b, hb, hattr⟩
    · rw [heq] at hlayout
      exact absurd hlayout (by decide)
    · exact (hp.arms b hb).check (by simp [← heq, hattr])
  have hnumber : head.number? checkMethod = none := by rw [ClassHead.number?, harm.check]
  have hinherited : head.inherited? checkMethod = some (.thing "function") := by
    have hname : checkMethod ≠ "__name__" ∧ checkMethod ≠ "__qualname__" ∧ checkMethod ≠ "__base__" ∧
      checkMethod ≠ "__dataclass_params__" ∧ checkMethod ≠ "__weakref__" := by decide
    have hunions : Inherited.ofUnion.lookup checkMethod = some (.thing "function") := rfl
    simp [ClassHead.inherited?, hname, harm.kind, lookup_append, hunions]
  have hfound : g.attr? (.object (.arm name a.attr) vs) checkMethod = some (.thing "function") := by
    have hplace : checkMethod ∉ Inherited.onClassOnly ∧ checkMethod ≠ "__class__" := by decide
    simp [attr?, hvs, hplace, classAttr?, enumOf?, hhead, headAttr?, harm.ordinary.key, hunion, hfrom,
      harm.check, hnumber, hinherited]
  simp [attr, (h.plain hp ha).veil?_eq_none, hfound]

end

end Globals

end Xdr
