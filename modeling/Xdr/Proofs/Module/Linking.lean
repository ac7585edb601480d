import Xdr.Proofs.Module.Loading

/-!
# Linking under unambiguous names

The bodies of the classes of a loaded module are those that the schema gives them, when its names are
unambiguous: every mention stands for the type that it is meant to stand for.
-/

namespace Xdr

open Naming List Schema

variable {shape : Shape} {u : UnionType} {p : UnionPlan} {a : ArmPlan} {d : StructType}
  {name : String} {m : Module}

lemma Schema.form_congr {s : Schema} {f g : String → Mention}
    (h : ∀ name, shape.base = .named name → f name = g name) : s.form f shape = s.form g shape := by
  have helement : s.elementForm f shape.base = s.elementForm g shape.base := by
    cases hbase : shape.base with
    | builtin b => rfl
    | named name => simp only [elementForm, h name hbase]
  obtain ⟨base, arity, length⟩ := shape
  cases base with
  | named name => cases arity <;> simp only [form, helement]
  | builtin b => cases b <;> cases arity <;> rfl

namespace Globals

variable {g : Globals} {s : Schema}

namespace Loaded

variable (hg : g.Loaded s s.types) (hn : s.Unambiguous)

include hg hn

lemma mention_eq {t : TypeInfo} (ht : s.find? name = some t) (key : ClassKey) :
    g.mention key name = s.meant name := by
  obtain ⟨hmem, rfl⟩ := mem_of_find? ht
  have hholds := hg.types t hmem
  have hprivate := privateName_of_shared (hn.globalName_shared hmem) key.bodyName
  have hcls : g.names.lookup (globalName t.name) = some (.cls (.type t.name)) →
      g.mention key t.name = .cls (.type t.name) := by
    intro hlookup
    simp [mention, resolve, hprivate, lookup, hlookup, ClassKey.isEnum]
  obtain ⟨d, canonical, size, opacity, mentions⟩ := t
  cases d with
  | enum e =>
    have henum : g.enum? e.name = some (EnumClass.ofMembers e) := hg.undisturbed.enum?_eq hholds.cls
    have hname : g.names.lookup (globalName e.name) = some (.cls (.enum e.name)) := hholds.name
    rw [meant_of_enum ht rfl]
    simp only [mention, resolve, hprivate, lookup]
    simp only [TypeInfo.name, Definition.name, hname, ClassKey.isEnum, enumOf?, henum]
    rfl
  | struct d | typedef d =>
    rw [hcls hholds.bound, Schema.meant, ht]
  | union u =>
    obtain ⟨p, -, hunion⟩ := hholds
    rw [hcls hunion.bound, Schema.meant, ht]

lemma form_eq (hfound : ∀ name, shape.base = .named name → ∃ t, s.find? name = some t)
    (lib : Imports.Support) (key : ClassKey) :
    (Linker.mk s g lib).form key shape = s.formOf shape :=
  form_congr fun name hname => by
    obtain ⟨t, ht⟩ := hfound name hname
    exact hg.mention_eq hn ht key

lemma slot_eq (hfound : ∀ name, shape.base = .named name → ∃ t, s.find? name = some t)
    (lib : Imports.Support) (key : ClassKey) {field : String}
    (hfield : field.startsWith "__" = false) :
    (Linker.mk s g lib).slot key field shape = s.slotOf lib field shape := by
  rw [Linker.slot, hg.form_eq hn hfound, privateName_of_shared hfield]
  rfl

end Loaded

end Globals

namespace Schema

variable {s : Schema} {t : TypeInfo}

lemma Closed.plan_found (hc : s.Closed) (ht : t ∈ s.types) (hd : t.definition = .struct d) :
    ∀ f ∈ d.plan, ∀ name, f.2.base = .named name →
      ∃ t', s.find? name = some t' := by
  intro f hf
  obtain ⟨decl, hdecl, rfl⟩ := mem_map.1 hf
  exact hc.named t ht decl (by rw [hd]; exact hdecl)

lemma Closed.arm_found (hc : s.Closed) (ht : t ∈ s.types) (hd : t.definition = .union u)
    (hp : s.unionPlan? u = some p) (ha : a ∈ p.arms) :
    ∀ name, a.decl.base = .named name → ∃ t', s.find? name = some t' :=
  hc.named t ht a.decl (by rw [hd]; exact .tail _ (decl_mem_of_arm hp ha))

lemma Numeric.found (h : s.Numeric shape) :
    ∀ name, shape.base = .named name → ∃ t, s.find? name = some t := by
  intro name hname
  cases h with
  | builtin => cases hname
  | enum ht =>
    cases hname
    exact ⟨_, ht⟩

lemma unwrap_found {n : Nat} : ∀ name ∈ (s.unwrap n shape).1, ∃ t, s.find? name = some t := by
  induction n generalizing shape with
  | zero => simp [unwrap]
  | succ n ih =>
    intro name hname
    unfold unwrap at hname
    split at hname
    · split at hname
      · rename_i hfind
        rcases mem_cons.1 hname with rfl | hname
        · exact ⟨_, hfind⟩
        · exact ih name hname
      · cases hname
    · cases hname

lemma wrappers_found {c : Chain} (hchain : s.chain? d = some c) :
    ∀ name ∈ c.wrappers, ∃ t, s.find? name = some t := by
  obtain ⟨decl, -, hself⟩ := chain?_spec hchain
  unfold selfLink? at hself
  dsimp only at hself
  split_ifs at hself
  rw [← Option.some.inj hself]
  exact unwrap_found

end Schema

namespace Globals.Loaded

variable {g : Globals} {s : Schema} {t : TypeInfo} (hg : g.Loaded s s.types) (hs : s.Sound)
  (hc : s.Closed) (hn : s.Unambiguous) (ht : t ∈ s.types) (lib : Imports.Support)

include hg hs hc hn ht

lemma structBody_eq (hd : t.definition = .struct d) :
    some ((Linker.mk s g lib).structBody d) = s.bodyOf lib t.definition := by
  have hshared : ∀ f ∈ d.plan, f.1.startsWith "__" = false := fun f hf =>
    (hn.fields_nodup ht (hs.fields?_eq ht hd)).2 (f.1, s.formOf f.2.toShape) (mem_map_of_mem hf)
  have hslots : ∀ fields : List (String × Decl), (∀ f ∈ fields, f ∈ d.plan) →
      (fields.map fun f => (Linker.mk s g lib).slot (.type d.name) f.1 f.2.toShape) =
        s.slotsOf lib fields := fun _ hsub =>
    map_congr_left fun f hf =>
      hg.slot_eq hn (hc.plan_found ht hd f (hsub f hf)) lib _ (hshared f (hsub f hf))
  rw [hd]
  unfold Linker.structBody Schema.bodyOf
  dsimp only
  cases hchain : s.chain? d with
  | none => exact congrArg (some <| Body.record ·) (hslots _ fun f hf => hf)
  | some c =>
    obtain ⟨decl, hplan, -⟩ := chain?_spec hchain
    have hlink : privateName (ClassKey.type d.name).bodyName c.link = c.link :=
      privateName_of_shared (hshared (c.link, decl) (by simp [hplan])) _
    have hwrappers : (c.wrappers.map fun name => (globalName name, g.mention (.type d.name) name)) =
        c.wrappers.map fun name => (globalName name, s.meant name) := by
      refine map_congr_left fun name hname => ?_
      obtain ⟨t', ht'⟩ := wrappers_found hchain name hname
      rw [hg.mention_eq hn ht']
    have hbefore := hslots c.before fun f hf => by simp [hplan, hf]
    have hbehind := hslots c.behind fun f hf => by simp [hplan, hf]
    simp only [Schema.chainBodyOf, hbefore, hbehind, hlink, hwrappers]

lemma branch_eq (hd : t.definition = .union u) (hp : s.unionPlan? u = some p) (ha : a ∈ p.arms) :
    (Linker.mk s g lib).branch t p a = s.branchOf t.name p a := by
  have hholds := hg.types t ht
  rw [Holds, hd] at hholds
  obtain ⟨q, hq, hunion⟩ := hholds
  cases hp.symm.trans hq
  have hregular := hn.plan_regular hs ht hd hp
  have hname := privateName_of_shared (hn.globalName_shared ht) (ClassKey.type t.name).bodyName
  have hattr := privateName_of_shared ((hregular.arms a ha).shared a.attr (by simp))
    (ClassKey.type t.name).bodyName
  have hlabels : (a.labels.map fun n => g.label (.type t.name) p n) =
      a.labels.map fun n => .ok (p.labelValue n) :=
    map_congr_left fun n _ => label_eq hg.undisturbed (hg.enums.labels hn hp) _ n
  have htarget : (do g.attr (← g.resolve (.type t.name) t.name) a.attr) =
      .ok (.cls (.arm t.name a.attr)) := by
    rw [resolve, hname, lookup, hunion.bound]
    exact hunion.attr_eq ha
  have hform := hg.form_eq hn (hc.arm_found ht hd hp ha) lib (.type t.name)
  simp only [Linker.branch, Schema.branchOf, hlabels, hattr, htarget, hform]

lemma unionBody_eq (hd : t.definition = .union u) (hp : s.unionPlan? u = some p) :
    some ((Linker.mk s g lib).unionBody t p) = s.bodyOf lib t.definition := by
  have hplan : s.plan? t.name = some p := (hs.plan?_eq ht hd).trans hp
  have hdisc := hg.form_eq hn (hs.plans _ p hplan).2.found lib (.type t.name)
  have hbranches : ((p.arms.filter (!·.isDefault)).map ((Linker.mk s g lib).branch t p)) =
      (p.arms.filter (!·.isDefault)).map (s.branchOf t.name p) :=
    map_congr_left fun a ha =>
      hg.branch_eq hs hc hn ht lib hd hp (mem_of_mem_filter ha)
  have hfall : (p.arms.find? (·.isDefault)).map ((Linker.mk s g lib).branch t p) =
      (p.arms.find? (·.isDefault)).map (s.branchOf t.name p) := by
    cases hfind : p.arms.find? (·.isDefault) with
    | none => rfl
    | some a =>
      exact congrArg some (hg.branch_eq hs hc hn ht lib hd hp (mem_of_find?_eq_some hfind))
  have hname : t.name = u.name := by rw [TypeInfo.name, hd, Definition.name]
  rw [hd]
  simp only [Linker.unionBody, Schema.bodyOf, hp, Option.map_some, Schema.unionBodyOf, hdisc, hbranches,
    hfall, ← hname]

lemma armBody_eq (hd : t.definition = .union u) (hp : s.unionPlan? u = some p) (ha : a ∈ p.arms) :
    (Linker.mk s g lib).armBody t p a = .arm (s.armBodyOf lib p a) := by
  have hplan : s.plan? t.name = some p := (hs.plan?_eq ht hd).trans hp
  have hshared := ((hn.plan_regular hs ht hd hp).arms a ha).shared
  have hdisc := hg.slot_eq hn (hs.plans _ p hplan).2.found lib (.arm t.name a.attr)
    (hshared p.discField (by simp))
  have hpayload : (a.payload?.map fun name =>
      (Linker.mk s g lib).slot (.arm t.name a.attr) name a.decl.toShape) =
        a.payload?.map fun name => s.slotOf lib name a.decl.toShape := by
    cases hfield : a.payload? with
    | none => rfl
    | some name =>
      exact congrArg some (hg.slot_eq hn (hc.arm_found ht hd hp ha) lib _
        (hshared name (by simp [Schema.payload, hfield])))
  simp only [Linker.armBody, Schema.armBodyOf, hdisc, hpayload]

end Globals.Loaded

lemma Linker.belongsTo_of_mem_bodies {l : Linker} {t : TypeInfo} {entry : ClassKey × Option Nat × Body}
    (h : entry ∈ l.bodies t) : entry.1.belongsTo t.name := by
  unfold bodies at h
  dsimp only at h
  split at h
  · cases h
  · rw [mem_singleton.1 h]
    exact rfl
  · rw [mem_singleton.1 h]
    exact rfl
  · split at h
    · cases h
    · rcases mem_cons.1 h with rfl | h
      · exact rfl
      · obtain ⟨a, -, rfl⟩ := mem_map.1 h
        exact rfl

namespace Globals.Loaded

variable {g : Globals} {s : Schema} (hg : g.Loaded s s.types) (hs : s.Sound) (hc : s.Closed)
  (hn : s.Unambiguous) (lib : Imports.Support)

include hs in
lemma lookup_bodies {t : TypeInfo} (ht : t ∈ s.types) (key : ClassKey) (hkey : key.belongsTo t.name) :
    (s.types.flatMap (Linker.mk s g lib).bodies).lookup key =
      ((Linker.mk s g lib).bodies t).lookup key := by
  refine lookup_flatMap ht fun t' ht' hne => lookup_of_notMem fun hmem => hne ?_
  obtain ⟨entry, hentry, rfl⟩ := mem_map.1 hmem
  have hother := Linker.belongsTo_of_mem_bodies hentry
  refine inj_on_of_nodup_map hs.names ht' ht ?_
  generalize entry.1 = key at hkey hother
  cases key <;> simp_all [ClassKey.belongsTo]

include hg hs hc hn

lemma lookup_type (name : String) :
    (s.types.flatMap (Linker.mk s g lib).bodies).lookup (.type name) =
      (s.find? name).bind fun t => (s.bodyOf lib t.definition).map (t.size.bytes?, ·) := by
  cases hfind : s.find? name with
  | none =>
    refine lookup_flatMap_eq_none fun t ht => lookup_of_notMem fun hmem => ?_
    obtain ⟨entry, hentry, hkey⟩ := mem_map.1 hmem
    have hbelongs := Linker.belongsTo_of_mem_bodies hentry
    rw [hkey] at hbelongs
    have hsame : name = t.name := hbelongs
    exact absurd hsame.symm (by simpa using find?_eq_none.1 hfind t ht)
  | some t =>
    obtain ⟨ht, rfl⟩ := mem_of_find? hfind
    rw [lookup_bodies hs lib ht (.type t.name) rfl, Option.bind_some]
    unfold Linker.bodies
    dsimp only
    cases hd : t.definition with
    | enum e => rfl
    | struct d =>
      have hbody := hg.structBody_eq hs hc hn ht lib hd
      rw [hd] at hbody
      rw [← hbody, lookup_cons_self]
      rfl
    | typedef d =>
      have hshared : "value".startsWith "__" = false := by simp
      have hslot := hg.slot_eq hn (hc.named t ht d.decl (by rw [hd]; exact (.head _))) lib
        (.type t.name) hshared
      dsimp only
      rw [hslot, lookup_cons_self]
      rfl
    | union u =>
      have hholds := hg.types t ht
      rw [Holds, hd] at hholds
      obtain ⟨p, hp, -⟩ := hholds
      have hbody := hg.unionBody_eq hs hc hn ht lib hd hp
      rw [hd] at hbody
      simp only [hp, ← hbody, lookup_cons_self, Option.map_some]

lemma lookup_arm {t : TypeInfo} (ht : t ∈ s.types) (hd : t.definition = .union u)
    (hp : s.unionPlan? u = some p) (ha : a ∈ p.arms) :
    (s.types.flatMap (Linker.mk s g lib).bodies).lookup (.arm t.name a.attr) =
      some (t.size.bytes?, .arm (s.armBodyOf lib p a)) := by
  have hbody := hg.armBody_eq hs hc hn ht lib hd hp ha
  have hkeys : ((p.arms.map fun a => (ClassKey.arm t.name a.attr, t.size.bytes?,
      (Linker.mk s g lib).armBody t p a)).map (·.1)).Nodup := by
    have hattrs := (unionPlan?_attrs_nodup hp).map (f := ClassKey.arm t.name)
      fun x y hxy => by cases hxy; rfl
    rw [map_map] at hattrs ⊢
    exact hattrs
  rw [lookup_bodies hs lib ht (.arm t.name a.attr) rfl]
  unfold Linker.bodies
  simp only [hd, hp]
  rw [lookup_cons, beq_eq_false_iff_ne.2 (by simp), ← hbody]
  exact lookup_of_nodup_map hkeys (mem_map_of_mem ha)

end Globals.Loaded

namespace Globals

lemma Plain.keeps {key : ClassKey} {fields : List String} (hk : m.toGlobals.Plain key fields)
    (hm : m.toGlobals.Undisturbed) (hnodup : fields.Nodup)
    (hshared : ∀ name ∈ fields, name.startsWith "__" = false) : m.Keeps key fields where
  construct _ hargs := hk.construct_eq hm hshared hargs
  attr _ hvs _ hf := hk.attr_eq hnodup hvs hf
  reachable := hk.reachable_eq
  compares vs := by
    obtain ⟨head, hhead, hordinary⟩ := hk.head
    have hnumber := hordinary.numbers "__eq__" (by decide)
    simp [Equality.comparesFields, Equality.isComparing, hhead, hordinary.bare, isBroken, hnumber,
      hk.veil?_eq_none]

namespace Loaded

variable {g : Globals} {s : Schema} (hg : g.Loaded s s.types)

include hg

lemma hasRecord (hn : s.Unambiguous) {fields : List (String × Form)}
    (h : s.fields? name = some fields) : g.HasRecord name (fields.map (·.1)) ∧
      (fields.map (·.1)).Nodup ∧ ∀ x ∈ fields.map (·.1), x.startsWith "__" = false := by
  obtain ⟨t, hfind⟩ : ∃ t, s.find? name = some t := by
    unfold Schema.fields? at h
    split at h
    · exact ⟨_, ‹_›⟩
    · exact ⟨_, ‹_›⟩
    · cases h
  obtain ⟨ht, rfl⟩ := mem_of_find? hfind
  obtain ⟨hnodup, hshared⟩ := hn.fields_nodup ht h
  refine ⟨?_, hnodup, fun x hx => ?_⟩
  · have hholds := hg.types t ht
    unfold Schema.fields? at h
    obtain ⟨d, canonical, size, opacity, mentions⟩ := t
    cases d with
    | struct d =>
      simp only [hfind, Option.some.injEq] at h
      subst h
      simpa only [Holds, Schema.fieldsOf, map_map, Function.comp_def] using hholds
    | typedef d =>
      simp only [hfind, Option.some.injEq] at h
      subst h
      exact hholds
    | _ => simp [hfind] at h
  · obtain ⟨f, hf, rfl⟩ := mem_map.1 hx
    exact hshared f hf

lemma hasUnion (hs : s.Sound) (hn : s.Unambiguous) (h : s.plan? name = some p) :
    g.HasUnion s name p ∧ p.Regular s name ∧
      ∃ t ∈ s.types, t.name = name ∧ ∃ u, t.definition = .union u ∧ s.unionPlan? u = some p := by
  unfold Schema.plan? at h
  split at h
  · rename_i u canonical size opacity mentions hfind
    obtain ⟨ht, rfl⟩ := mem_of_find? hfind
    obtain ⟨q, hq, hunion⟩ := hg.types _ ht
    cases h.symm.trans hq
    exact ⟨hunion, hn.plan_regular hs ht rfl h, _, ht, rfl, u, rfl, h⟩
  · cases h

end Loaded

end Globals

lemma Module.faithful_of_load {s : Schema} {c : Config} (hs : s.Sound) (hc : s.Closed)
    (hn : s.Unambiguous) (h : Module.load s c = .ok m) :
    ∃ lib, checkText s c = .ok lib ∧ Faithful s lib m := by
  obtain ⟨lib, hsupport, h⟩ := bind_ok h
  obtain ⟨g, hload, h⟩ := bind_ok h
  cases h
  have hg := Globals.load_ok hs hn hload
  have hbody := hg.lookup_type hs hc hn lib
  have hbodied : ∀ name t, s.find? name = some t → (∀ e, t.definition ≠ .enum e) →
      ∃ b, s.bodyOf lib t.definition = some b := by
    intro name t ht hd
    have hholds := hg.types t (mem_of_find? ht).1
    unfold Globals.Holds at hholds
    cases hdef : t.definition with
    | enum e => exact absurd hdef (hd e)
    | struct d => cases hchain : s.chain? d <;> simp [Schema.bodyOf, hchain]
    | typedef d => exact ⟨_, rfl⟩
    | union u =>
      rw [hdef] at hholds
      obtain ⟨p, hp, -⟩ := hholds
      exact ⟨_, by rw [Schema.bodyOf, hp]; rfl⟩
  refine ⟨lib, hsupport, {
    ranks := rfl
    reverse := ?_
    unspoilt := hg.undisturbed.isSpoilt_eq
    enum := fun name t e ht he => ?_
    body := fun name => ?_
    bodied := hbodied
    size := fun name t ht hd => ?_
    readable := fun name => ?_
    record := fun name fields hfields => ?_
    union := fun name p hp => ?_
    arm := fun name p hp a ha => ?_
    armBody := fun name p hp a ha => ?_
    armSize := fun name t p ht hp a ha => ?_
    cases := fun name p hp a ha => ?_
    check := fun name p hp a ha => ?_ }⟩
  · simp only [Module.canReverse, Globals.builtinCall]
    rw [hg.undisturbed.builtin_eq (by decide)]
    rfl
  · obtain ⟨hmem, rfl⟩ := mem_of_find? ht
    have hholds := hg.types t hmem
    rw [Globals.Holds, he] at hholds
    rw [TypeInfo.name, he]
    exact hg.undisturbed.enum?_eq hholds.cls
  · rw [Module.body?, hbody]
    cases s.find? name with
    | none => rfl
    | some t => cases hb : s.bodyOf lib t.definition <;> simp [hb]
  · rw [Module.size?, hbody, ht, Option.bind_some]
    obtain ⟨b, hb⟩ := hbodied name t ht hd
    rw [hb]
    rfl
  · rw [Option.all_eq_true]
    intro head hhead
    exact hg.undisturbed.readable head (mem_of_find?_eq_some hhead)
  · obtain ⟨hrecord, hnodup, hshared⟩ := hg.hasRecord hn hfields
    refine ⟨hrecord.plain.keeps hg.undisturbed hnodup hshared, ?_⟩
    obtain ⟨head, hhead, -, hunion, harm⟩ := hrecord.cls
    simp [Module.kind?, hhead, hunion, harm]
  · obtain ⟨head, hhead, hunion⟩ := (hg.hasUnion hs hn hp).1.union
    simp [Module.kind?, hhead, hunion.kind]
  · obtain ⟨hunion, hregular, -⟩ := hg.hasUnion hs hn hp
    have ha' := hregular.arms a ha
    exact (hunion.plain hregular ha).keeps hg.undisturbed ha'.fields fun x hx =>
      ha'.shared x (.tail _ hx)
  · obtain ⟨-, -, t, ht, rfl, u, hd, hu⟩ := hg.hasUnion hs hn hp
    rw [Module.body?, hg.lookup_arm hs hc hn lib ht hd hu ha]
    rfl
  · obtain ⟨-, -, t', ht', rfl, u, hd, hu⟩ := hg.hasUnion hs hn hp
    obtain rfl : t' = t := Option.some.inj ((hs.find?_name ht').symm.trans ht)
    rw [Module.size?, hg.lookup_arm hs hc hn lib ht' hd hu ha]
    rfl
  · obtain ⟨head, hhead, harm⟩ := (hg.hasUnion hs hn hp).1.arms a ha
    simp [hhead, harm.cases]
  · obtain ⟨hunion, hregular, -⟩ := hg.hasUnion hs hn hp
    refine ⟨fun hmem => (hregular.arms a ha).check (.tail _ hmem), fun vs hvs => ?_⟩
    exact hunion.check_eq hregular ha hvs

end Xdr
