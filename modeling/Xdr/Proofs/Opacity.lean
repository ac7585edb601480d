import Xdr.Proofs.Analysis.Reordering
import Xdr.Proofs.Compilation

/-!
# Opacity

A type holds opaque bytes exactly when its declarations lead to a declaration of them, through types
of any kind and declarations of any arity.
-/

namespace Xdr

open List

open Ast (Specification)

variable {d e : Definition} {t : TypeInfo} {classes : List ClassText} {shape : Shape}
  {p : UnionPlan}

namespace Definitions

/-- A member of the first definition is of the type that the second one defines. -/
def Leads (defs : Definitions) (d e : Definition) : Prop :=
  e ∈ defs ∧ ∃ m ∈ d.members, m.base = .named e.name

/-- Some chain of members leads to a definition that has opaque bytes as a member. -/
def ReachesOpaque (defs : Definitions) (d : Definition) : Prop :=
  ∃ e, Relation.ReflTransGen defs.Leads d e ∧ ∃ m ∈ e.members, m.isOpaque = true

lemma reachesOpaque_iff {defs : Definitions} :
    defs.ReachesOpaque d ↔
      (∃ m ∈ d.members, m.isOpaque) ∨ ∃ e, defs.Leads d e ∧ defs.ReachesOpaque e := by
  constructor
  · rintro ⟨e, hleads, hbytes⟩
    obtain rfl | ⟨next, hstep, hrest⟩ := hleads.cases_head
    · exact .inl hbytes
    · exact .inr ⟨next, hstep, e, hrest, hbytes⟩
  · rintro (hbytes | ⟨next, hstep, e, hrest, hbytes⟩)
    · exact ⟨d, .refl, hbytes⟩
    · exact ⟨e, .head hstep hrest, hbytes⟩

end Definitions

namespace Elaborated

variable {spec : Specification} {defs : Definitions} (h : Elaborated spec defs)
include h

lemma eq_of_name (hd : d ∈ defs) (he : e ∈ defs) (hname : d.name = e.name) : d = e :=
  inj_on_of_nodup_map h.defs_names_nodup hd he hname

lemma mentions_iff_leads (hd : d ∈ defs) (he : e ∈ defs) :
    defs.graph.Mentions d.name e.name ↔ defs.Leads d e := by
  rw [Definitions.graph_mentions_iff]
  constructor
  · rintro ⟨r, hr, hname, hmember⟩
    cases h.eq_of_name hr hd hname
    exact ⟨he, hmember⟩
  · rintro ⟨-, hmember⟩
    exact ⟨d, hd, rfl, hmember⟩

lemma path_of_leads (hd : d ∈ defs) (hleads : Relation.ReflTransGen defs.Leads d e) :
    e ∈ defs ∧ Relation.ReflTransGen defs.graph.Mentions d.name e.name := by
  induction hleads with
  | refl => exact ⟨hd, .refl⟩
  | tail _ hstep ih =>
    obtain ⟨hmiddle, hpath⟩ := ih
    exact ⟨hstep.1, hpath.tail ((h.mentions_iff_leads hmiddle hstep.1).2 hstep)⟩

lemma leads_of_path (hd : d ∈ defs) {target : String}
    (hpath : Relation.ReflTransGen defs.graph.Mentions d.name target) :
    ∃ e ∈ defs, e.name = target ∧ Relation.ReflTransGen defs.Leads d e := by
  induction hpath with
  | refl => exact ⟨d, hd, rfl, .refl⟩
  | tail _ hstep ih =>
    obtain ⟨e, he, rfl, hleads⟩ := ih
    obtain ⟨r, hr, -, m, hm, hbase⟩ := (defs.graph_mentions_iff _ _).1 hstep
    obtain ⟨next, hfind⟩ := h.exists_defined hr hm hbase
    obtain ⟨hnext, rfl⟩ := (h.find?_iff _ next).1 hfind
    exact ⟨next, hnext, rfl, hleads.tail ((h.mentions_iff_leads he hnext).1 hstep)⟩

lemma mem_opaqueTypes_iff_reachesOpaque (hd : d ∈ defs) :
    d.name ∈ defs.opaqueTypes defs.graph ↔ defs.ReachesOpaque d := by
  rw [defs.mem_opaqueTypes_iff]
  constructor
  · rintro ⟨target, htarget, hpath⟩
    obtain ⟨e, he, rfl, hleads⟩ := h.leads_of_path hd hpath
    obtain ⟨r, hr, hname⟩ := mem_map.1 htarget
    obtain ⟨hr, hbytes⟩ := mem_filter.1 hr
    cases h.eq_of_name hr he hname
    exact ⟨_, hleads, any_eq_true.1 hbytes⟩
  · rintro ⟨e, hleads, hbytes⟩
    obtain ⟨he, hpath⟩ := h.path_of_leads hd hleads
    have hdirect : e.name ∈ defs.directlyOpaque :=
      mem_map_of_mem (mem_filter.2 ⟨he, any_eq_true.2 hbytes⟩)
    exact ⟨e.name, hdirect, hpath⟩

end Elaborated

namespace Schema

variable {s : Schema}

lemma Sound.holdsOpaque_iff (hs : s.Sound) (shape : Shape) :
    s.holdsOpaque shape ↔ shape.isOpaque = true ∨
      ∃ t ∈ s.types, shape.base = .named t.name ∧ t.holdsOpaque := by
  unfold holdsOpaque Shape.isOpaque
  cases hbase : shape.base with
  | builtin b => simp
  | named name =>
    constructor
    · intro hbytes
      cases hfind : s.find? name with
      | none => simp [hfind] at hbytes
      | some t =>
        obtain ⟨ht, rfl⟩ := mem_of_find? hfind
        exact .inr ⟨t, ht, rfl, by simpa [hfind] using hbytes⟩
    · rintro (hbytes | ⟨t, ht, hname, hbytes⟩)
      · simp at hbytes
      · cases hname
        simpa [hs.find?_name ht] using hbytes

def OpacityExact (s : Schema) : Prop :=
  ∀ t ∈ s.types, t.holdsOpaque = true ↔ s.definitions.ReachesOpaque t.definition

lemma OpacityExact.iff_member (h : s.OpacityExact) (hs : s.Sound) (ht : t ∈ s.types) :
    t.holdsOpaque ↔ ∃ m ∈ t.definition.members, s.holdsOpaque m.toShape := by
  rw [h t ht, Definitions.reachesOpaque_iff]
  constructor
  · rintro (⟨m, hm, hbytes⟩ | ⟨e, ⟨he, m, hm, hbase⟩, hreaches⟩)
    · exact ⟨m, hm, (hs.holdsOpaque_iff _).2 (.inl hbytes)⟩
    · obtain ⟨next, hnext, rfl⟩ := mem_map.1 he
      exact ⟨m, hm, (hs.holdsOpaque_iff _).2 (.inr ⟨next, hnext, hbase, (h next hnext).2 hreaches⟩)⟩
  · rintro ⟨m, hm, hbytes⟩
    rcases (hs.holdsOpaque_iff _).1 hbytes with hbytes | ⟨next, hnext, hbase, hbytes⟩
    · exact .inl ⟨m, hm, hbytes⟩
    · exact .inr ⟨next.definition, ⟨mem_map_of_mem hnext, m, hm, hbase⟩,
        (h next hnext).1 hbytes⟩

lemma holdsOpaque_scalar (s : Schema) (shape : Shape) :
    s.holdsOpaque (.scalar shape.base) = s.holdsOpaque shape := rfl

lemma Sound.holdsOpaque_name (hs : s.Sound) (ht : t ∈ s.types) :
    s.holdsOpaque (.scalar (.named t.name)) = t.holdsOpaque := by
  simp [holdsOpaque, Shape.scalar, hs.find?_name ht]

lemma OpacityExact.holdsOpaque_follow (h : s.OpacityExact) (hs : s.Sound) (n : Nat) :
    ∀ shape, s.holdsOpaque (s.definitions.follow n shape) = s.holdsOpaque shape := by
  induction n with
  | zero => exact fun _ => rfl
  | succ n ih =>
    intro shape
    unfold Definitions.follow
    split
    · rename_i name _ hbase
      split
      · rename_i d hfind
        rw [ih]
        obtain ⟨t, ht, hdefinition⟩ := mem_map.1 (mem_of_find?_eq_some hfind)
        have hname : t.name = name := by
          rw [TypeInfo.name, hdefinition]
          simpa using find?_some hfind
        have hmember := h.iff_member hs ht
        rw [hdefinition] at hmember
        rw [Bool.eq_iff_iff, ← s.holdsOpaque_scalar shape, hbase, ← hname, hs.holdsOpaque_name ht]
        simpa [Definition.members] using hmember.symm
      · rw [← s.holdsOpaque_scalar shape, hbase]
    · rfl

lemma OpacityExact.holdsOpaque_numeric (h : s.OpacityExact) (hs : s.Sound)
    (hnumeric : s.Numeric shape) : s.holdsOpaque shape = false := by
  cases hnumeric with
  | @builtin b low high hrange => cases b <;> first | rfl | cases hrange
  | @enum name t e hfind he =>
    obtain ⟨ht, rfl⟩ := mem_of_find? hfind
    rw [hs.holdsOpaque_name ht, ← Bool.not_eq_true, h.iff_member hs ht, he]
    exact fun ⟨m, hm, _⟩ => nomatch hm

end Schema

section

variable {spec : Specification} {s : Schema} (hs : (analyze spec).schema = some s)
include hs

lemma accepted_opacityExact : s.OpacityExact := by
  obtain ⟨-, order, hmade, -, rfl⟩ := schema_of_analyze hs
  intro t ht
  rw [Definitions.schema_types] at ht
  obtain ⟨d, hd, rfl⟩ := mem_map.1 ht
  rw [Definitions.schema_definitions, Definitions.info, contains_iff_mem]
  exact hmade.mem_opaqueTypes_iff_reachesOpaque hd

lemma accepted_canonical (ht : t ∈ s.types) {m : Decl} (hm : m ∈ t.definition.members) :
    s.canonical m.toShape = s.definitions.canonical m.toShape := by
  obtain ⟨-, order, hmade, horder, rfl⟩ := schema_of_analyze hs
  rw [Definitions.schema_types] at ht
  obtain ⟨d, hd, rfl⟩ := mem_map.1 ht
  rw [Definitions.schema_definitions]
  exact hmade.schema_canonical horder _ fun name hbase => hmade.exists_defined hd hm hbase

lemma accepted_discriminant (ht : t ∈ s.types) {u : UnionType} (hu : t.definition = .union u)
    (hp : s.unionPlan? u = some p) :
    s.holdsOpaque u.discriminant.toShape = false ∧ s.holdsOpaque p.disc = false := by
  have hsound := (accepted_schema hs).1
  have hexact := accepted_opacityExact hs
  have hplan : s.plan? t.name = some p := (hsound.plan?_eq ht hu).trans hp
  have hdisc : s.holdsOpaque p.disc = false :=
    hexact.holdsOpaque_numeric hsound (hsound.plans t.name p hplan).2
  have hmember : u.discriminant ∈ t.definition.members := by
    rw [hu]
    exact .head _
  refine ⟨?_, hdisc⟩
  calc s.holdsOpaque u.discriminant.toShape
      = s.holdsOpaque (s.definitions.canonical u.discriminant.toShape) :=
        (hexact.holdsOpaque_follow hsound _ _).symm
    _ = s.holdsOpaque (.scalar (s.canonical u.discriminant.toShape).base) := by
        rw [accepted_canonical hs ht hmember, s.holdsOpaque_scalar]
    _ = false := by rw [← (Schema.unionPlan?_disc hp).1, hdisc]

end

namespace Emit

/-- The annotation refers to the variable for the storage of opaque bytes. -/
def Hint.mentionsStorage : Hint → Bool
  | .named _ => false
  | .storage => true
  | .applied _ argument => argument.mentionsStorage

/-- A field of the class has such an annotation. -/
def ClassText.AsksForStorage (k : ClassText) : Prop :=
  ∃ f ∈ k.fields, f.hint.mentionsStorage = true

lemma mentionsStorage_classHint (name : String) (generic : Bool) :
    (classHint name generic).mentionsStorage = generic := by
  cases generic <;> rfl

lemma mentionsStorage_elementHint (s : Schema) (base : Base) :
    (elementHint s base).mentionsStorage = s.holdsOpaque (.scalar base) := by
  cases base with
  | builtin b => cases b <;> rfl
  | named name => exact mentionsStorage_classHint _ _

lemma mentionsStorage_hint (s : Schema) (d : Shape) :
    (hint s d).mentionsStorage = s.holdsOpaque d := by
  rw [← s.holdsOpaque_scalar, ← mentionsStorage_elementHint, hint]
  split
  · rfl
  · split <;> rfl

lemma generic_mem_bases {base : String} : generic ∈ bases base t ↔ t.holdsOpaque := by
  cases hbytes : t.holdsOpaque <;> simp [bases, generic, hbytes]

section

variable {s : Schema} {c : Config} {t : TypeInfo}

lemma structClass_asks {d : StructType} : (structClass s c t d).AsksForStorage ↔
    ∃ m ∈ d.fields, s.holdsOpaque m.toShape := by
  simp [ClassText.AsksForStorage, structClass, StructType.plan, mentionsStorage_hint]

lemma typedefClass_asks :
    (typedefClass s c t shape).AsksForStorage ↔ s.holdsOpaque shape := by
  simp [ClassText.AsksForStorage, typedefClass, mentionsStorage_hint]

lemma armClass_asks {a : ArmPlan} : (armClass s p t a).AsksForStorage ↔
    s.holdsOpaque a.decl.toShape = true ∨ s.holdsOpaque p.disc := by
  by_cases hvoid : a.decl.isVoid
  · have hnothing : s.holdsOpaque a.decl.toShape = false := by
      have hbase : a.decl.base = .builtin .void := by simpa [Shape.isVoid] using hvoid
      simp [Schema.holdsOpaque, hbase]
    simp [ClassText.AsksForStorage, armClass, ArmPlan.payload?, hvoid, mentionsStorage_hint, hnothing]
  · simp [ClassText.AsksForStorage, armClass, ArmPlan.payload?, hvoid, mentionsStorage_hint]

end

/-- The classes of a type: its own is generic when the type holds opaque bytes, the others are made
for its arms, and together they annotate its members. -/
structure ClassesOf (s : Schema) (t : TypeInfo) (own : ClassText) (arms : List ClassText) : Prop where
  name : own.name = Naming.globalName t.name
  generic : Emit.generic ∈ own.parents ↔ t.holdsOpaque = true
  single : t.kind ≠ .union → arms = []
  parents : ∀ k ∈ arms, k.parents = [classHint own.name t.holdsOpaque]
  asks : (∃ k ∈ own :: arms, k.AsksForStorage) ↔
    ∃ m ∈ t.definition.members, s.holdsOpaque m.toShape = true

lemma ClassesOf.alone {s : Schema} {own : ClassText} (name : own.name = Naming.globalName t.name)
    (generic : Emit.generic ∈ own.parents ↔ t.holdsOpaque)
    (asks : own.AsksForStorage ↔ ∃ m ∈ t.definition.members, s.holdsOpaque m.toShape) :
    ClassesOf s t own [] where
  name := name
  generic := generic
  single := fun _ => rfl
  parents := nofun
  asks := by simpa using asks

lemma exists_classesOf {spec : Specification} {s : Schema} (hs : (analyze spec).schema = some s)
    {c : Config} (ht : t ∈ s.types) (hclasses : classes? s c t = some classes) :
    ∃ own arms, classes = own :: arms ∧ ClassesOf s t own arms := by
  have hmember := (accepted_opacityExact hs).iff_member (accepted_schema hs).1 ht
  unfold classes? at hclasses
  split at hclasses
  · rename_i e he
    cases hclasses
    refine ⟨_, _, rfl, .alone ?_ ?_ ?_⟩
    · simp [enumClass, TypeInfo.name, he, Definition.name]
    · rw [hmember, he]
      simp [enumClass, generic, Definition.members]
    · rw [he]
      simp [ClassText.AsksForStorage, enumClass, Definition.members]
  · rename_i d hd
    cases hclasses
    refine ⟨_, _, rfl, .alone rfl generic_mem_bases ?_⟩
    rw [structClass_asks, hd]
    rfl
  · rename_i d hd
    cases hclasses
    refine ⟨_, _, rfl, .alone rfl generic_mem_bases ?_⟩
    rw [typedefClass_asks, hd]
    simp [Definition.members]
  · rename_i u hu
    obtain ⟨p, hp, rfl⟩ := Option.map_eq_some_iff.1 hclasses
    obtain ⟨hdeclared, hplanned⟩ := accepted_discriminant hs ht hu hp
    refine ⟨_, _, rfl, rfl, generic_mem_bases, fun hkind => absurd ?_ hkind, ?_, ?_⟩
    · rw [TypeInfo.kind, hu]
      rfl
    · intro k hk
      obtain ⟨a, -, rfl⟩ := mem_map.1 hk
      rfl
    · -- the union class has no fields of its own, and no discriminant asks for storage
      have hown : ¬ (unionClass s c t p).AsksForStorage := by
        simp [ClassText.AsksForStorage, unionClass]
      rw [hu]
      simp [hown, armClass_asks, hplanned, Definition.members, hdeclared,
        ← Schema.unionPlan?_declarations hp]

lemma classes_infix_moduleLines {s : Schema} {c : Config} {sourceName : Option String}
    {lines : Lines} (hlines : moduleLines? s c sourceName = some lines) (ht : t ∈ s.types)
    (hclasses : classes? s c t = some classes) : classes.flatMap ClassText.lines <:+: lines := by
  obtain ⟨body, hbody, rfl⟩ := Option.map_eq_some_iff.1 hlines
  obtain ⟨enums, henums, hbody⟩ := Option.bind_eq_some_iff.1 hbody
  obtain ⟨types, htypes, hbody⟩ := Option.bind_eq_some_iff.1 hbody
  cases hbody
  have htype : typeLines? s c t =
      some (classes.flatMap ClassText.lines ++ closingLines t classes.tail) := by
    rw [typeLines?, hclasses]
    rfl
  have hfound : ∀ {p : TypeInfo → Bool} {texts : List Lines}, p t →
      (s.types.filter p).mapM (typeLines? s c) = some texts →
      classes.flatMap ClassText.lines <:+: texts.flatten := by
    intro p texts hp htexts
    obtain ⟨text, hmem, htext⟩ :=
      exists_of_forall₂_left (mapM_eq_some_iff.1 htexts) (mem_filter.2 ⟨ht, hp⟩)
    rw [htype, Option.some.injEq] at htext
    exact (prefix_append _ _).isInfix.trans (htext ▸ infix_of_mem_flatten hmem)
  have hstands : ∀ {part front back : Lines}, classes.flatMap ClassText.lines <:+: part →
      classes.flatMap ClassText.lines <:+: front ++ part ++ back :=
    fun hpart => hpart.trans (infix_append _ _ _)
  rw [← append_assoc, ← append_assoc, ← append_assoc, ← append_assoc]
  by_cases hkind : t.kind = .enum
  · rw [append_assoc _ types.flatten]
    exact hstands (hfound (by simpa using hkind) henums)
  · exact hstands (hfound (by simpa using hkind) htypes)

end Emit

/-- Opacity is reachability. A type of an accepted text holds opaque bytes exactly when a chain of
members leads from it to a definition with such a member, and exactly when one of its members is
known to hold them. Its class is generic in their storage exactly when a field that stands for one of
its members is annotated with the variable for it; for a union these are fields of the classes of its
arms, whose base is the class of the union. -/
theorem opacity_exact (c : Config) {filename source : String} {accepted : Accepted}
    (h : (compile filename source).outcome = .ok accepted) {t : TypeInfo}
    (ht : t ∈ accepted.schema.types) :
    (t.holdsOpaque = true ↔ accepted.schema.definitions.ReachesOpaque t.definition) ∧
    (t.holdsOpaque = true ↔
      ∃ m ∈ t.definition.members, accepted.schema.holdsOpaque m.toShape = true) ∧
    ∃ lines own arms, accepted.moduleLines c filename = .ok lines ∧
      Emit.classes? accepted.schema c t = some (own :: arms) ∧
      (own :: arms).flatMap Emit.ClassText.lines <:+: lines ∧
      own.name = Naming.globalName t.name ∧ (t.kind ≠ .union → arms = []) ∧
      (∀ k ∈ arms, k.parents = [Emit.classHint own.name t.holdsOpaque]) ∧
      (Emit.generic ∈ own.parents ↔ t.holdsOpaque = true) ∧
      (Emit.generic ∈ own.parents ↔ ∃ k ∈ own :: arms, k.AsksForStorage) := by
  obtain ⟨spec, hs⟩ := exists_schema_of_compile h
  have hexact := accepted_opacityExact hs
  have hmember := hexact.iff_member (accepted_schema hs).1 ht
  have hcomplete := complete_of_compile h
  obtain ⟨lines, hlines⟩ := hcomplete.exists_moduleLines c (Emit.sourceName? filename)
  obtain ⟨classes, hclasses⟩ := hcomplete.exists_classes c ht
  obtain ⟨own, arms, rfl, hof⟩ := Emit.exists_classesOf hs ht hclasses
  refine ⟨hexact t ht, hmember, lines, own, arms, ?_, hclasses,
    Emit.classes_infix_moduleLines hlines ht hclasses, hof.name, hof.single, hof.parents, hof.generic, ?_⟩
  · rw [Accepted.moduleLines, hlines]
  · rw [hof.generic, hmember, hof.asks]

def pocketText : String :=
  "typedef opaque key<8>; typedef key ring<>; typedef ring *pocket; typedef hyper weight;"

theorem opacity_exact_pocket :
    ∃ accepted, (compile "pocket.x" pocketText).outcome = .ok accepted ∧
      (∃ t ∈ accepted.schema.types, t.name = "pocket" ∧
        accepted.schema.definitions.ReachesOpaque t.definition ∧
        ∃ own arms, Emit.classes? accepted.schema {} t = some (own :: arms) ∧
          Emit.generic ∈ own.parents ∧ ∃ k ∈ own :: arms, k.AsksForStorage) ∧
      ∃ t ∈ accepted.schema.types, t.name = "weight" ∧
        ¬ accepted.schema.definitions.ReachesOpaque t.definition ∧
        ∃ own arms, Emit.classes? accepted.schema {} t = some (own :: arms) ∧
          Emit.generic ∉ own.parents := by
  have hknown : (compile "pocket.x" pocketText).outcome.toOption.map
      (fun a => a.schema.types.map fun t => (t.name, t.holdsOpaque)) =
        some [("key", true), ("ring", true), ("pocket", true), ("weight", false)] := by
    decide +kernel
  obtain ⟨accepted, houtcome, htypes⟩ := exists_ok_of_toOption hknown
  have hpocket : ("pocket", true) ∈ accepted.schema.types.map fun t => (t.name, t.holdsOpaque) := by
    simp [htypes]
  have hweight : ("weight", false) ∈ accepted.schema.types.map fun t => (t.name, t.holdsOpaque) := by
    simp [htypes]
  obtain ⟨t, ht, htname⟩ := mem_map.1 hpocket
  obtain ⟨w, hw, hwname⟩ := mem_map.1 hweight
  obtain ⟨htname, htbytes⟩ := Prod.mk.inj htname
  obtain ⟨hwname, hwbytes⟩ := Prod.mk.inj hwname
  obtain ⟨htreaches, -, -, own, arms, -, hclasses, -, -, -, -, hgeneric, hasks⟩ :=
    opacity_exact {} houtcome ht
  obtain ⟨hwreaches, -, -, own', arms', -, hclasses', -, -, -, -, hgeneric', -⟩ :=
    opacity_exact {} houtcome hw
  rw [← Bool.not_eq_true] at hwbytes
  exact ⟨accepted, houtcome,
    ⟨t, ht, htname, htreaches.1 htbytes, own, arms, hclasses, hgeneric.2 htbytes,
      hasks.1 (hgeneric.2 htbytes)⟩,
    w, hw, hwname, mt hwreaches.2 hwbytes, own', arms', hclasses', mt hgeneric'.1 hwbytes⟩

end Xdr
