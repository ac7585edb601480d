import Xdr.Proofs.Module.Binding
import Xdr.Proofs.Opacity

/-!
# Names of a generated module

The names of a specification are apart, and so are the fields of a struct and the values of an enum.
-/

namespace Xdr

open Naming List

variable {t : TypeInfo} {classes : List ClassText} {c : Config}

namespace Naming

/-- The names of a scope stay apart when they are escaped: where one gets an underscore, there is no
other that is spelled so. -/
def KeptApart (reserved names : List String) : Prop :=
  ∀ name ∈ names, name ∈ keywords ++ reserved → name ++ "_" ∉ names

def Settles (reserved : List String) : Prop :=
  ∀ name ∈ keywords ++ reserved, name ++ "_" ∉ keywords ++ reserved

instance (reserved names : List String) : Decidable (KeptApart reserved names) := by
  unfold KeptApart; infer_instance

instance (reserved : List String) : Decidable (Settles reserved) := by
  unfold Settles; infer_instance

lemma globalReserved_settles : Settles globalReserved := by decide
lemma memberReserved_settles : Settles memberReserved := by decide
lemma enumReserved_settles : Settles enumReserved := by decide

lemma safe_eq (reserved : List String) (name : String) :
    safe reserved name = if name ∈ keywords ++ reserved then name ++ "_" else name := by
  simp [safe]

lemma nodup_map_safe_iff {reserved names : List String} (hreserved : Settles reserved)
    (hnames : names.Nodup) : (names.map (safe reserved)).Nodup ↔ KeptApart reserved names := by
  rw [nodup_map_iff_inj_on hnames]
  constructor
  · intro hinj name hname hescaped hother
    have heq := hinj name hname _ hother (by
      rw [safe_eq, safe_eq, if_pos hescaped, if_neg (hreserved name hescaped)])
    have := length_lt_append_underscore name
    rw [← heq] at this
    exact lt_irrefl _ this
  · intro hapart a ha b hb heq
    rw [safe_eq, safe_eq] at heq
    split_ifs at heq with hleft hright hright
    · simpa [String.toList_inj] using congrArg String.toList heq
    · exact absurd (heq ▸ hb) (hapart a ha hleft)
    · exact absurd (heq ▸ ha) (hapart b hb hright)
    · exact heq

end Naming

def TypeInfo.values (t : TypeInfo) : List String :=
  match t.definition with
  | .enum e => e.variants.map (·.1)
  | _ => []

/-- The constants, the types and the values of enums. -/
def Schema.names (s : Schema) : List String :=
  s.constants.map (·.1) ++ s.types.flatMap fun t => t.name :: t.values

/-- The names in each class of a definition, with those that are reserved there. -/
def Definition.scopes : Definition → List (List String × List String)
  | .enum e => [(enumReserved, e.variants.map (·.1))]
  | .struct d => [(memberReserved, d.fields.filterMap (·.name))]
  | .typedef _ => [(memberReserved, ["value"])]
  | .union u => (memberReserved, []) :: u.declarations.map fun d =>
      (memberReserved, (if d.isVoid then [] else d.name.toList) ++ u.discriminant.name.toList)

lemma map_variants {P : Ast.EnumVariant → String × Int → Prop} {xs : List Ast.EnumVariant}
    {vs : List (String × Int)} (h : List.Forall₂ (fun x v => v.1 = x.name ∧ P x v) xs vs) :
    vs.map (·.1) = xs.map (·.name) := by
  induction h with
  | nil => rfl
  | cons hv _ ih => rw [map_cons, map_cons, ih, hv.1]

lemma names_of_types {spec : Ast.Specification} (order : List String) (all : Definitions) {ds : List Ast.Definition} {defs : Definitions}
    (h : List.Forall₂ (Resolves spec) (ds.filter (·.kind.isType)) defs) :
    ((defs.map (all.info order)).flatMap fun t => t.name :: t.values) =
      ((ds.flatMap Bindings.ofDefinition).filter (·.kind ≠ .const)).map (·.name) := by
  induction ds generalizing defs with
  | nil =>
    cases h
    rfl
  | cons d ds ih =>
    by_cases htype : d.kind.isType
    · rw [filter_cons_of_pos (by simpa using htype)] at h
      cases h with
      | cons hd hrest =>
        rw [map_cons, flatMap_cons, ih hrest, flatMap_cons, filter_append,
          map_append]
        congr 1
        cases hd with
        | enum hname hvariants =>
          simp [Definitions.info, TypeInfo.name, Definition.name, TypeInfo.values,
            Bindings.ofDefinition, hname, map_variants hvariants, filter_map, Function.comp_def]
        | struct hname _ | typedef hname _ | union hname _ _ _ =>
          simp [Definitions.info, TypeInfo.name, Definition.name, TypeInfo.values,
            Bindings.ofDefinition, hname, Ast.Definition.kind, Ast.Definition.name]
    · rw [filter_cons_of_neg (by simpa using htype)] at h
      rw [ih h, flatMap_cons, filter_append, map_append]
      cases d <;> simp_all [Ast.Definition.kind, Kind.isType, Bindings.ofDefinition]

lemma filterMap_map_sublist {α β γ : Type} (f : α → β) (g : α → Option γ) (l : List α) :
    (l.filterMap fun a => (g a).map fun _ => f a).Sublist (l.map f) := by
  induction l with
  | nil => exact .slnil
  | cons a l ih =>
    cases h : g a with
    | none => simpa [h] using ih.cons (f a)
    | some b => simpa [h] using ih

lemma forall₂_filterMap_name {spec : Ast.Specification} {ds : List Ast.Declaration}
    {rs : List Decl} (h : List.Forall₂ (ResolvesDecl spec) ds rs) :
    rs.filterMap (·.name) = ds.filterMap (·.name) := by
  induction h with
  | nil => rfl
  | cons hd _ ih => rw [filterMap_cons, filterMap_cons, hd.name, ih]

section

variable {spec : Ast.Specification} {s : Schema} (hs : (analyze spec).schema = some s)
include hs

lemma accepted_names_nodup : s.names.Nodup := by
  obtain ⟨hwf, order, hmade, -, rfl⟩ := schema_of_analyze hs
  have hperm := (filter_append_perm (fun b : Binding => b.kind = .const) spec.bindings).map
    (·.name)
  rw [map_append] at hperm
  have hall := hperm.nodup_iff.2 (DistinctNames.names_nodup hwf.names)
  rw [Schema.names, Definitions.schema_types, names_of_types order _ hmade.resolves]
  refine hall.sublist (List.Sublist.append ?_ ?_)
  · rw [Definitions.schema, Bindings.collect_table hwf.names, Bindings.constants, map_filterMap]
    simpa [Function.comp_def] using filterMap_map_sublist Binding.name _ _
  · simp [Ast.Specification.bindings]

lemma accepted_written (ht : t ∈ s.types) :
    ∃ d ∈ spec.definitions, Resolves spec d t.definition := by
  obtain ⟨-, order, hmade, -, rfl⟩ := schema_of_analyze hs
  obtain ⟨r, hr, rfl⟩ := mem_map.1 ht
  obtain ⟨d, hd, -, hresolves⟩ := hmade.exists_written hr
  exact ⟨d, hd, hresolves⟩

lemma accepted_scopes_nodup (ht : t ∈ s.types) :
    ∀ scope ∈ t.definition.scopes, scope.2.Nodup := by
  obtain ⟨hwf, -⟩ := schema_of_analyze hs
  obtain ⟨d, hd, hresolves⟩ := accepted_written hs ht
  generalize t.definition = r at hresolves
  have hbindings : ((Bindings.ofDefinition d).map (·.name)).Nodup := by
    have hnames := DistinctNames.names_nodup hwf.names
    rw [Ast.Specification.bindings, map_flatMap] at hnames
    exact (nodup_flatMap.1 hnames).1 d hd
  cases hresolves with
  | @enum d e hname hvariants =>
    simpa [Definition.scopes, map_variants hvariants, Function.comp_def] using
      (nodup_cons.1 hbindings).2
  | @struct d r hname hfields =>
    simpa [Definition.scopes, forall₂_filterMap_name hfields] using hwf.fields d hd
  | typedef _ _ => simp [Definition.scopes]
  | @union d u hname hdisc harms hfall =>
    intro scope hscope
    rcases mem_cons.1 hscope with rfl | hscope
    · exact nodup_nil
    obtain ⟨m, hm, rfl⟩ := mem_map.1 hscope
    obtain ⟨x, hx, hxm⟩ : ∃ x ∈ d.armDeclarations, ResolvesDecl spec x m := by
      rcases mem_append.1 hm with hm | hm
      · obtain ⟨arm, harm, rfl⟩ := mem_map.1 hm
        obtain ⟨a, ha, hres⟩ := exists_of_forall₂_right harms harm
        exact ⟨_, mem_append_left _ (mem_map_of_mem ha), hres.decl⟩
      · rw [Option.mem_toList.1 hm] at hfall
        cases hwritten : d.fallback with
        | none =>
          rw [hwritten] at hfall
          cases hfall
        | some x =>
          rw [hwritten] at hfall
          cases hfall with
          | some hres => exact ⟨x, mem_append_right _ (Option.mem_toList.2 hwritten), hres⟩
    have hapart := (hwf.unions d hd).names x hx
    rw [← hxm.name, ← hdisc.name] at hapart
    cases hvoid : m.isVoid <;> cases hname : m.name <;> cases hfield : u.discriminant.name <;>
      simp_all
    exact fun heq => hapart heq.symm

lemma accepted_named (hcomplete : s.Complete) (ht : t ∈ s.types) :
    (∀ d, t.definition = .struct d → ∀ m ∈ d.fields, m.name.isSome) ∧
    (∀ u, t.definition = .union u → u.discriminant.name.isSome ∧
      ∀ m ∈ u.declarations, m.isVoid = false → m.name.isSome) := by
  obtain ⟨hwf, -⟩ := schema_of_analyze hs
  obtain ⟨d, hd, hresolves⟩ := accepted_written hs ht
  have hnone : ∀ m ∈ t.definition.members, m.base ≠ .builtin .void → m.name.isSome := by
    intro m hm hbase
    by_contra hname
    exact hbase (hcomplete.named t ht m hm (by simpa using hname))
  have hplain : ∀ {x m}, x ∈ d.plainDeclarations → ResolvesDecl spec x m → m ∈ t.definition.members →
      m.name.isSome := by
    intro x m hx hxm hm
    refine hnone m hm fun hvoid => ?_
    have hmention := (hwf.plain d hd x hx).1
    rw [hxm.base, hvoid] at hmention
    exact absurd (hmention.2 rfl) (by decide)
  refine ⟨fun r hr m hm => ?_, fun u hu => ?_⟩
  · rw [hr] at hresolves hplain
    cases hresolves with
    | struct _ hfields =>
      obtain ⟨x, hx, hxm⟩ := exists_of_forall₂_right hfields hm
      exact hplain hx hxm hm
  · rw [hu] at hresolves hplain hnone
    cases hresolves with
    | union _ hdisc _ _ =>
      refine ⟨hplain (.head _) hdisc (.head _), fun m hm hvoid => ?_⟩
      exact hnone m (.tail _ hm) (by simpa [Shape.isVoid] using hvoid)

end

namespace Emit

open Phrase Lines

/-- The names that a class gives to its values and fields. -/
def ClassText.attributes (k : ClassText) : List String :=
  k.values.map (·.1) ++ k.fields.map (·.name)

lemma attributes_of_classes {s : Schema} (hclasses : classes? s c t = some classes)
    (hfields : ∀ d, t.definition = .struct d → ∀ m ∈ d.fields, m.name.isSome)
    (harms : ∀ u, t.definition = .union u → u.discriminant.name.isSome ∧
      ∀ m ∈ u.declarations, m.isVoid = false → m.name.isSome) :
    List.Forall₂ (fun k scope => k.attributes = scope.2.map (safe scope.1)) classes
      t.definition.scopes := by
  unfold classes? at hclasses
  split at hclasses
  · rename_i e he
    cases hclasses
    simp [he, Definition.scopes, ClassText.attributes, enumClass, enumMemberName, Function.comp_def]
  · rename_i d hd
    cases hclasses
    rw [hd, Definition.scopes]
    refine .cons ?_ .nil
    have hnamed := hfields d hd
    simp only [ClassText.attributes, structClass, StructType.plan, map_nil, nil_append,
      map_map]
    clear hd
    generalize d.fields = fields at hnamed
    induction fields with
    | nil => rfl
    | cons m fields ih =>
      obtain ⟨name, hname⟩ := Option.isSome_iff_exists.1 (hnamed m (.head _))
      simp [hname, memberName, ← ih fun m hm => hnamed m (.tail _ hm)]
  · rename_i d hd
    cases hclasses
    rw [hd, Definition.scopes]
    exact .cons (by simp [ClassText.attributes, typedefClass]; decide) .nil
  · rename_i u hu
    obtain ⟨p, hp, rfl⟩ := Option.map_eq_some_iff.1 hclasses
    obtain ⟨hdisc, hnamed⟩ := harms u hu
    obtain ⟨field, hfield⟩ := Option.isSome_iff_exists.1 hdisc
    have hdiscField : p.discField = memberName field := by
      obtain ⟨firsts, -, hplan⟩ := Option.bind_eq_some_iff.1 hp
      cases hplan
      simp [hfield]
    rw [hu, Definition.scopes, ← Schema.unionPlan?_declarations hp, map_map]
    refine .cons rfl (forall₂_map_left_iff.2 (forall₂_map_right_iff.2
      (forall₂_same.2 fun a ha => ?_)))
    have ha' := hnamed a.decl (Schema.decl_mem_of_arm hp ha)
    cases hvoid : a.decl.isVoid with
    | true => simp [ClassText.attributes, armClass, ArmPlan.payload?, hvoid, hdiscField, hfield, memberName]
    | false =>
      obtain ⟨name, hname⟩ := Option.isSome_iff_exists.1 (ha' hvoid)
      simp [ClassText.attributes, armClass, ArmPlan.payload?, hvoid, hdiscField, hfield, hname,
        memberName]

lemma nodup_attributes_iff {scopes : List (List String × List String)}
    (h : List.Forall₂ (fun k scope => k.attributes = scope.2.map (safe scope.1)) classes scopes)
    (hscopes : ∀ scope ∈ scopes, Settles scope.1 ∧ scope.2.Nodup) :
    List.Forall₂ (fun k scope => k.attributes = scope.2.map (safe scope.1) ∧
      (k.attributes.Nodup ↔ KeptApart scope.1 scope.2)) classes scopes := by
  induction h with
  | nil => exact .nil
  | cons hk _ ih =>
    obtain ⟨hsettles, hnames⟩ := hscopes _ (.head _)
    refine .cons ⟨hk, ?_⟩ (ih fun scope hscope => hscopes scope (.tail _ hscope))
    rw [hk]
    exact nodup_map_safe_iff hsettles hnames

/-- The names that the classes of the arms of a type have in the text. -/
def armNames (s : Schema) (t : TypeInfo) : List String :=
  match t.definition with
  | .union u => (s.unionPlan? u).toList.flatMap fun p =>
      p.arms.map fun a => (ClassKey.arm t.name a.attr).bodyName
  | _ => []

lemma boundNames_flatMap {α : Type} (l : List α) (f : α → Lines) :
    Lines.boundNames (l.flatMap f) = l.flatMap fun a => (f a).boundNames := flatMap_assoc

lemma boundNames_join (mark : String) (ps : List Phrase) :
    (join mark ps).boundNames = ps.flatMap Phrase.boundNames := by
  induction ps with
  | nil => rfl
  | cons p ps ih =>
    cases ps with
    | nil => simp [join]
    | cons q rest => simp_all [join]

lemma boundNames_class {s : Schema} (hclasses : classes? s c t = some classes) :
    ∀ k ∈ classes, k.lines.boundNames = [k.name] := by
  have hbound : ∀ k : ClassText, k.lines.boundNames = k.decorators.flatMap Phrase.boundNames ++
      k.name :: k.parents.flatMap fun p => p.phrase.boundNames := by
    intro k
    simp [ClassText.lines, boundNames_flatMap, call, commas, boundNames_join, flatMap_map]
  have hhint : ∀ name generic, (classHint name generic).phrase.boundNames = [] := by
    intro name generic
    cases generic <;> simp [classHint, Hint.phrase, attr]
  have hbases : ∀ base, (bases base t).flatMap (fun p => p.phrase.boundNames) = [] := by
    intro base
    cases hbytes : t.holdsOpaque <;> simp [bases, hbytes, generic, Hint.phrase, support, attr]
  unfold classes? at hclasses
  split at hclasses
  · cases hclasses
    simp [hbound, enumClass, Hint.phrase, support, attr]
  · cases hclasses
    simp [hbound, structClass, hbases, dataclass, attr]
  · cases hclasses
    simp [hbound, typedefClass, hbases, dataclass, attr]
  · obtain ⟨p, -, rfl⟩ := Option.map_eq_some_iff.1 hclasses
    simp [hbound, unionClass, hbases, armClass, hhint, dataclass, attr, call, commas, boundNames_join]

lemma boundNames_aliases (e : EnumType) :
    (aliasLines e).boundNames = e.variants.map fun v => globalName v.1 := by
  have haliases : ∀ vs : List (String × Int), Lines.boundNames (vs.flatMap fun v =>
      line (assign (binds (globalName v.1)) (attr (own (globalName e.name)) (enumMemberName v.1)))) =
        vs.map fun v => globalName v.1 := by
    intro vs
    rw [boundNames_flatMap]
    simp [assign, attr, ← map_eq_flatMap]
  unfold aliasLines
  dsimp only
  split
  · rename_i hempty
    rw [← haliases, isEmpty_iff.1 hempty]
  · rw [Lines.boundNames_append, haliases, boundNames_blank, append_nil]

lemma boundNames_type {s : Schema} {text : Lines} (h : typeLines? s c t = some text) :
    text.boundNames = globalName t.name :: (t.values.map globalName ++ armNames s t) := by
  obtain ⟨classes, hclasses, rfl⟩ := Option.map_eq_some_iff.1 h
  rw [Lines.boundNames_append, boundNames_flatMap, flatMap_congr (boundNames_class hclasses)]
  unfold classes? at hclasses
  split at hclasses
  · rename_i e he
    cases hclasses
    simp [enumClass, closingLines, boundNames_aliases, TypeInfo.values, armNames, he, TypeInfo.name,
      Definition.name, Function.comp_def]
  · rename_i d hd
    cases hclasses
    simp [structClass, closingLines, TypeInfo.values, armNames, hd]
  · rename_i d hd
    cases hclasses
    simp [typedefClass, closingLines, TypeInfo.values, armNames, hd]
  · rename_i u hu
    obtain ⟨p, hp, rfl⟩ := Option.map_eq_some_iff.1 hclasses
    have harms : (p.arms.map (armClass s p t)).flatMap (fun k => [k.name]) =
        p.arms.map fun a => (ClassKey.arm t.name a.attr).bodyName := by
      rw [flatMap_map]
      exact (map_eq_flatMap ..).symm
    simp [unionClass, closingLines, TypeInfo.values, armNames, hu, hp, boundNames_join, commas, harms,
      flatMap_map]

lemma boundNames_module {s : Schema} {sourceName : Option String} {lines : Lines}
    (h : moduleLines? s c sourceName = some lines) :
    lines.boundNames.Perm (s.names.map globalName ++ s.types.flatMap (armNames s)) := by
  obtain ⟨body, hbody, rfl⟩ := Option.map_eq_some_iff.1 h
  obtain ⟨enums, henums, hbody⟩ := Option.bind_eq_some_iff.1 hbody
  obtain ⟨types, htypes, hbody⟩ := Option.bind_eq_some_iff.1 hbody
  cases hbody
  let bound (t : TypeInfo) := globalName t.name :: (t.values.map globalName ++ armNames s t)
  have hparts : ∀ {ts : List TypeInfo} {texts : List Lines}, ts.mapM (typeLines? s c) = some texts →
      Lines.boundNames texts.flatten = ts.flatMap bound := by
    intro ts texts htexts
    have hall := mapM_eq_some_iff.1 htexts
    clear htexts
    induction hall with
    | nil => rfl
    | cons ht _ ih =>
      rw [flatten_cons, Lines.boundNames_append, boundNames_type ht, ih, flatMap_cons]
  have hcomments : (headerComments c sourceName).boundNames = [] := by
    unfold headerComments
    rw [Lines.boundNames_append, boundNames_flatMap]
    split <;> try split
    all_goals simp
  have hconstants : (constantLines s).boundNames = s.constants.map fun x => globalName x.1 := by
    unfold constantLines
    split <;> simp_all [boundNames_flatMap, assign, ← map_eq_flatMap]
  have hexports : (if c.exportAll then exportLines s else []).boundNames = [] := by
    split <;> simp [exportLines]
  have hkinds : ((s.types.filter (·.kind = .enum)).flatMap bound ++
      (s.types.filter (·.kind ≠ .enum)).flatMap bound).Perm (s.types.flatMap bound) := by
    rw [← flatMap_append]
    refine List.Perm.flatMap_right _ ?_
    simpa using filter_append_perm (fun t : TypeInfo => t.kind = .enum) s.types
  have hnames : s.names.map globalName = (s.constants.map fun x => globalName x.1) ++
      s.types.flatMap fun t => globalName t.name :: t.values.map globalName := by
    simp [Schema.names, map_flatMap, Function.comp_def]
  rw [Lines.boundNames_append, hcomments, Lines.boundNames_append, Lines.boundNames_append,
    Lines.boundNames_append, Lines.boundNames_append, hconstants, hparts henums, hparts htypes,
    hexports, hnames]
  have himports : (imports c).boundNames = [] := by simp [imports]
  rw [himports, nil_append, nil_append, append_nil, append_assoc,
    append_assoc]
  exact (hkinds.trans (flatMap_append_perm s.types
    (fun t => globalName t.name :: t.values.map globalName) (armNames s)).symm).append_left _

lemma armNames_nodup (s : Schema) (t : TypeInfo) : (armNames s t).Nodup := by
  unfold armNames
  split
  · rename_i u _
    cases hp : s.unionPlan? u with
    | none => exact nodup_nil
    | some p =>
      have hinj : Function.Injective fun attr => (ClassKey.arm t.name attr).bodyName := by
        intro a b heq
        simpa [ClassKey.bodyName, String.toList_inj] using congrArg String.toList heq
      simpa [Function.comp_def] using (Schema.unionPlan?_attrs_nodup hp).map hinj
  · exact nodup_nil

end Emit

/-- Names are kept apart except where escaping meets a name that is spelled so, or the class of an arm
meets another class. The names that the module of an accepted text binds are those of its constants,
types and values, escaped, and those of the classes of arms. They are different exactly when no escaped
name is another name of the specification, no class of an arm is called like any of them, and no two
unions share the name of such a class. The names within a class are different exactly when no escaped
one is another name of the same class. The arms of a union always have different names. -/
theorem emitted_names_apart_iff (c : Config) {filename source : String} {accepted : Accepted}
    (h : (compile filename source).outcome = .ok accepted) :
    ∃ lines, accepted.moduleLines c filename = .ok lines ∧
      lines.boundNames.Perm (accepted.schema.names.map globalName ++
        accepted.schema.types.flatMap (Emit.armNames accepted.schema)) ∧
      (lines.boundNames.Nodup ↔ KeptApart globalReserved accepted.schema.names ∧
        (∀ t ∈ accepted.schema.types, ∀ name ∈ Emit.armNames accepted.schema t,
          name ∉ accepted.schema.names.map globalName) ∧
        accepted.schema.types.Pairwise fun t t' => List.Disjoint
          (Emit.armNames accepted.schema t) (Emit.armNames accepted.schema t')) ∧
      ∀ t ∈ accepted.schema.types, ∃ classes, Emit.classes? accepted.schema c t = some classes ∧
        classes.flatMap Emit.ClassText.lines <:+: lines ∧
        List.Forall₂ (fun k scope => k.attributes = scope.2.map (safe scope.1) ∧
          (k.attributes.Nodup ↔ KeptApart scope.1 scope.2)) classes t.definition.scopes ∧
        ∀ u p, t.definition = .union u → accepted.schema.unionPlan? u = some p →
          (p.arms.map (·.attr)).Nodup := by
  obtain ⟨spec, hs⟩ := exists_schema_of_compile h
  have hcomplete := complete_of_compile h
  obtain ⟨lines, hlines⟩ := hcomplete.exists_moduleLines c (Emit.sourceName? filename)
  have hperm := Emit.boundNames_module hlines
  refine ⟨lines, by rw [Accepted.moduleLines, hlines], hperm, ?_, fun t ht => ?_⟩
  · have harms : (accepted.schema.types.flatMap (Emit.armNames accepted.schema)).Nodup ↔
        accepted.schema.types.Pairwise fun t t' => List.Disjoint
          (Emit.armNames accepted.schema t) (Emit.armNames accepted.schema t') := by
      rw [nodup_flatMap]
      exact and_iff_right fun t _ => Emit.armNames_nodup _ t
    have hglobal : (accepted.schema.names.map globalName).Nodup ↔
        KeptApart globalReserved accepted.schema.names :=
      nodup_map_safe_iff globalReserved_settles (accepted_names_nodup hs)
    rw [hperm.nodup_iff, nodup_append', hglobal, harms]
    refine and_congr_right fun _ => (and_comm.trans (and_congr_left fun _ => ?_))
    simp only [disjoint_left, mem_flatMap, not_exists, not_and]
    exact ⟨fun hd t ht name hname hmem => hd hmem t ht hname,
      fun hd name hmem t ht hname => hd t ht name hname hmem⟩
  · obtain ⟨classes, hclasses⟩ := hcomplete.exists_classes c ht
    obtain ⟨hfields, harms⟩ := accepted_named hs hcomplete ht
    refine ⟨classes, hclasses, Emit.classes_infix_moduleLines hlines ht hclasses, ?_,
      fun u p _ hp => Schema.unionPlan?_attrs_nodup hp⟩
    have hattributes := Emit.attributes_of_classes hclasses hfields harms
    have hscopes := accepted_scopes_nodup hs ht
    have hreserved : ∀ scope ∈ t.definition.scopes, Settles scope.1 := by
      cases t.definition <;> simp [Definition.scopes, enumReserved_settles, memberReserved_settles]
    exact Emit.nodup_attributes_iff hattributes fun scope hscope =>
      ⟨hreserved scope hscope, hscopes scope hscope⟩

/-- Two constants and two fields that are escaped to one name. -/
def lambdaText : String :=
  "const lambda = 1; const lambda_ = 2; struct s \x7b int class; int class_; \x7d;"

theorem emitted_names_apart_iff_lambda : ∃ (accepted : Accepted) (lines : Lines)
    (classes : List Emit.ClassText), (compile "x" lambdaText).outcome = .ok accepted ∧
      accepted.moduleLines {} "x" = .ok lines ∧ ¬ lines.boundNames.Nodup ∧
      classes.flatMap Emit.ClassText.lines <:+: lines ∧ ∃ k ∈ classes, ¬ k.attributes.Nodup := by
  have hknown : (compile "x" lambdaText).outcome.toOption.map
      (fun a => (a.schema.names, a.schema.types.map fun t => t.definition.scopes)) =
        some (["lambda", "lambda_", "s"], [[(memberReserved, ["class", "class_"])]]) := by
    decide +kernel
  obtain ⟨accepted, houtcome, hknown⟩ := exists_ok_of_toOption hknown
  obtain ⟨hnames, hscopes⟩ := Prod.mk.inj hknown
  obtain ⟨t, htypes, ht⟩ := map_eq_singleton_iff.1 hscopes
  obtain ⟨lines, hlines, -, hbound, hclasses⟩ := emitted_names_apart_iff {} houtcome
  obtain ⟨classes, -, hinfix, hattributes, -⟩ := hclasses t (by simp [htypes])
  rw [ht] at hattributes
  cases hattributes with
  | cons hk _ =>
    refine ⟨accepted, lines, _, houtcome, hlines, fun hnodup => ?_, hinfix, _, .head _,
      fun hnodup => absurd (hk.2.1 hnodup) (by decide)⟩
    have hapart := (hbound.1 hnodup).1
    rw [hnames] at hapart
    exact absurd hapart (by decide)

end Xdr

/-! ## Names of arms -/

namespace Xdr.Naming

open List

end Xdr.Naming
