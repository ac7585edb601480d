import Xdr.Proofs.Codec.Chains
import Xdr.Proofs.Module.Binding

/-!
# Unions of a module

The class of a union has the classes of its arms for attributes, and each arm lists the discriminants
that select it.
-/

namespace Xdr

open Naming List

variable {arms : List ArmPlan} {name : String} {h union : ClassHead}

namespace Globals

def HasLabels (g : Globals) (p : UnionPlan) : Prop :=
  ∀ e, p.enum = some e → g.HasEnum e ∧ e.Regular ∧ (globalName e.name).startsWith "__" = false

lemma label_eq {g : Globals} (hg : g.Undisturbed) {p : UnionPlan} (hp : g.HasLabels p)
    (key : ClassKey) (n : Int) : g.label key p n = .ok (p.labelValue n) := by
  unfold label UnionPlan.labelValue
  cases hbind : p.enum.bind fun e => (e.variant? n).map (e, ·) with
  | none => rfl
  | some found =>
    obtain ⟨e, henum, hfound⟩ := Option.bind_eq_some_iff.1 hbind
    obtain ⟨variant, hvariant, rfl⟩ := Option.map_eq_some_iff.1 hfound
    obtain ⟨⟨_, k⟩, hk, rfl⟩ := Option.map_eq_some_iff.1 hvariant
    obtain rfl : k = n := by simpa using find?_some hk
    obtain ⟨hhas, hregular, hshared⟩ := hp e henum
    have hmem := mem_of_find?_eq_some hk
    have hname : g.lookup (globalName e.name) = .ok (.cls (.enum e.name)) := by
      rw [lookup, hhas.name]
    simp only [resolve, privateName_of_shared hshared, hname,
      privateName_of_shared (hregular.shared _ hmem)]
    exact hhas.attr_eq hg hregular hmem

lemma call_labelValue (g : Globals) (p : UnionPlan) (n : Int) (args : List Value)
    (named : Fields) : g.call (p.labelValue n) args named = .error .notApplicable := by
  unfold UnionPlan.labelValue
  split
  · rfl
  · split <;> rfl

end Globals

structure ClassHead.IsArm (h : ClassHead) (s : Schema) (name : String) (p : UnionPlan)
    (a : ArmPlan) : Prop where
  ordinary : h.Ordinary (.arm name a.attr) ((s.payload a).map (·.1) ++ [p.discField])
  kind : h.kind = .arm
  cases : h.cases = some (p.cases a)
  check : h.own.lookup checkMethod = none

structure ClassHead.IsUnion (h : ClassHead) (name : String) (arms : List ArmPlan) : Prop where
  key : h.key = .type name
  kind : h.kind = .union
  readable : h.isReadable = true
  own : ∀ x ∈ h.own, x.1 ∈ ["WIRE_SIZE", "STRICT_PADDING"] ∨ ∃ a ∈ arms, x.1 = a.attr
  arms : ∀ a ∈ arms, h.own.lookup a.attr = some (.cls (.arm name a.attr))

def ClassHead.withArm (h : ClassHead) (name attr : String) : ClassHead :=
  { h with own := (attr, .cls (.arm name attr)) :: h.own }

lemma ClassHead.IsUnion.withArm {a : ArmPlan} (hunion : h.IsUnion name arms)
    (hattrs : ∀ b ∈ arms, b.attr ≠ a.attr) :
    (h.withArm name a.attr).IsUnion name (arms ++ [a]) where
  key := hunion.key
  kind := hunion.kind
  readable := hunion.readable
  own x hx := by
    rcases mem_cons.1 hx with rfl | hx
    · exact .inr ⟨a, by simp, rfl⟩
    · obtain hlayout | ⟨b, hb, heq⟩ := hunion.own x hx
      · exact .inl hlayout
      · exact .inr ⟨b, by simp [hb], heq⟩
  arms b hb := by
    rw [ClassHead.withArm, lookup_cons]
    rcases mem_append.1 hb with hb | hb
    · rw [beq_eq_false_iff_ne.2 (hattrs b hb)]
      exact hunion.arms b hb
    · rw [mem_singleton.1 hb, beq_self_eq_true]

lemma ClassHead.IsUnion.lookup_private (hunion : h.IsUnion name arms)
    (hshared : ∀ b ∈ arms, b.attr.startsWith "__" = false) {x : String}
    (hx : x.startsWith "__" = true) : h.own.lookup x = none := by
  refine lookup_of_notMem fun hmem => ?_
  obtain ⟨entry, hentry, rfl⟩ := mem_map.1 hmem
  rcases hunion.own entry hentry with hlayout | ⟨b, hb, hattr⟩
  · have hlayoutShared : ∀ name ∈ ["WIRE_SIZE", "STRICT_PADDING"], name.startsWith "__" = false := by
      simp
    exact ne_of_shared (hlayoutShared _ hlayout) hx rfl
  · exact ne_of_shared (hshared b hb) hx hattr.symm

structure ArmPlan.Regular (s : Schema) (p : UnionPlan) (a : ArmPlan) : Prop where
  fields : ((s.payload a).map (·.1) ++ [p.discField]).Nodup
  shared : ∀ name ∈ a.attr :: ((s.payload a).map (·.1) ++ [p.discField]),
    name.startsWith "__" = false
  check : checkMethod ∉ a.attr :: ((s.payload a).map (·.1) ++ [p.discField])

namespace Globals

variable {s : Schema} {t : TypeInfo} {p : UnionPlan} {a : ArmPlan} {g g' : Globals}

lemma caseSet_ok (hg : g.Undisturbed) (hp : g.HasLabels p) {key : ClassKey} {default : Option Value}
    {found : Option (List Int)} {listed : List Int} {taken : Prop} [Decidable taken]
    (hdefault : g.discriminantDefault key p a = .ok default)
    (hfound : g.caseSet (if taken then default else none) listed = .ok found) :
    found = some listed := by
  unfold caseSet at hfound
  rw [hg.builtin_eq (by decide)] at hfound
  obtain ⟨_, hnone, hfound⟩ := bind_ok hfound
  cases hnone
  cases hvalue : if taken then default else none with
  | none =>
    rw [hvalue] at hfound
    cases hfound
    rfl
  | some v =>
    -- the name is taken by a label, which makes no set: loading stops
    have hlabel : ∃ n, v = p.labelValue n := by
      split_ifs at hvalue
      subst hvalue
      unfold discriminantDefault at hdefault
      split at hdefault
      · rw [label_eq hg hp] at hdefault
        cases hdefault
        exact ⟨_, rfl⟩
      · cases hdefault
    obtain ⟨n, rfl⟩ := hlabel
    rw [hvalue] at hfound
    obtain ⟨_, hcall, -⟩ := bind_ok hfound
    rw [call_labelValue] at hcall
    cases hcall

def rawArm (t : TypeInfo) (p : UnionPlan) (a : ArmPlan) (default : Option Value) : ClassHead :=
  { key := .arm t.name a.attr, kind := .arm, isGeneric := t.holdsOpaque, cases := some (p.cases a)
    own := default.toList.map (p.discField, ·) ++
      if a.isDefault then [("DEFAULT", .bool true)] else [] }

def armFields (s : Schema) (t : TypeInfo) (p : UnionPlan) (a : ArmPlan) (default : Option Value) :
    List Field :=
  (a.payload?.toList.map fun name =>
    ⟨privateName (ClassKey.arm t.name a.attr).bodyName name, Emit.typeHint s a.decl.toShape, none⟩) ++
    [⟨p.discField, Emit.typeHint s p.disc, default⟩]

lemma armFields_names (ha : a.Regular s p) (default : Option Value) :
    (armFields s t p a default).map (·.name) = (s.payload a).map (·.1) ++ [p.discField] := by
  have hpayload : (s.payload a).map (·.1) = a.payload?.toList := by
    simp [Schema.payload, Function.comp_def]
  rw [armFields, map_append, map_map, hpayload]
  refine congrArg (· ++ _) ((map_congr_left fun name hname => ?_).trans (map_id _))
  exact privateName_of_shared (ha.shared name (by simp [hpayload, hname])) _

lemma rawArm_lookup (hdisc : name ≠ p.discField) (hname : name ≠ "DEFAULT")
    (default : Option Value) : (rawArm t p a default).own.lookup name = none := by
  refine lookup_of_notMem ?_
  cases default <;> cases hd : a.isDefault <;> simp [rawArm, hd, hdisc, hname]

lemma inherited?_post_init (h : ClassHead) : h.inherited? "__post_init__" = none := by
  have hlists : ∀ l ∈ [Inherited.ofChain, Inherited.ofUnion, Inherited.ofGeneric, []],
      "__post_init__" ∉ l.map (·.1) := by decide
  have hevery : Inherited.ofEvery? "__post_init__" = none := by decide +kernel
  unfold ClassHead.inherited?
  rw [if_neg (by decide), if_neg (by decide), if_neg (by simp), if_neg (by simp), hevery,
    lookup_of_notMem]
  · rfl
  · simp only [map_append, mem_append, not_or]
    refine ⟨⟨?_, ?_⟩, ?_⟩ <;> split_ifs <;> exact hlists _ (by simp)

lemma rawArm_post_init (hhead : g.head? (.type t.name) = some union)
    (hunion : union.IsUnion t.name arms) (hshared : ∀ b ∈ arms, b.attr.startsWith "__" = false)
    (hdisc : p.discField.startsWith "__" = false) (default : Option Value) :
    g.headAttr? (rawArm t p a default) "__post_init__" = none := by
  have hown : (rawArm t p a default).own.lookup "__post_init__" = none :=
    rawArm_lookup (ne_of_shared hdisc (by simp)).symm (by decide) default
  have hfrom : union.own.lookup "__post_init__" = none := hunion.lookup_private hshared (by simp)
  have hnumber : (rawArm t p a default).number? "__post_init__" = none := by
    rw [ClassHead.number?, hown]
  have hkey : (rawArm t p a default).key = .arm t.name a.attr := rfl
  simp only [headAttr?, hkey, hhead, hown, hfrom, inherited?_post_init, hnumber, Option.bind_some,
    Option.isSome_none, Bool.and_false, Bool.false_eq_true, if_false]
  rfl

lemma loadArm_ok (hg : g.Undisturbed) (hp : g.HasLabels p) (ha : a.Regular s p)
    (hshared : ∀ b ∈ arms, b.attr.startsWith "__" = false)
    (hhead : g.head? (.type t.name) = some union) (hunion : union.IsUnion t.name arms)
    (h : g.loadArm s t p a = .ok g') :
    ∃ head : ClassHead, head.IsArm s t.name p a ∧
      g' = ((g.setHead (union.withArm t.name a.attr)).setHead head).bind
        (ClassKey.arm t.name a.attr).bodyName (.cls (.arm t.name a.attr)) := by
  have hdisc := privateName_of_shared (ha.shared p.discField (by simp))
  unfold loadArm at h
  simp only [hdisc] at h
  obtain ⟨default, hdefault, h⟩ := bind_ok h
  obtain ⟨found, hfound, h⟩ := bind_ok h
  obtain ⟨_, -, h⟩ := bind_ok h
  split at h
  · obtain ⟨_, hthrow, -⟩ := bind_ok h
    cases hthrow
  obtain ⟨fields, hfields, h⟩ := bind_ok h
  obtain ⟨made, hmade, h⟩ := bind_ok h
  rw [hhead] at h
  split at h
  · cases h
  · cases h
  · rename_i hsome
    cases hsome
    cases h
    obtain rfl := caseSet_ok hg hp hdefault hfound
    have hpost : g.headAttr? (rawArm t p a default) "__post_init__" = none :=
      rawArm_post_init hhead hunion hshared (ha.shared _ (by simp)) default
    have hlookup : ∀ name, name ≠ "__name__" → name ≠ "__qualname__" →
        (("__name__", Value.str a.attr) :: ("__qualname__", .str (ClassKey.arm t.name a.attr).qualifiedName)
          :: made.own).lookup name = made.own.lookup name := by
      intro name hfirst hsecond
      rw [lookup_cons, beq_eq_false_iff_ne.2 hfirst, lookup_cons,
        beq_eq_false_iff_ne.2 hsecond]
    have hnames := armFields_names (t := t) ha default
    have heq := finish_eq hmade
    refine ⟨_, ⟨⟨?_, ?_, ?_, ?_, ?_, fun name hname => ?_⟩, ?_, ?_, ?_⟩, rfl⟩
    · dsimp only
      rw [heq]
    · dsimp only
      rw [heq]
      exact (completeAll_names (hnames ▸ ha.fields) hfields).trans hnames
    · dsimp only
      rw [heq]
    · dsimp only
      rw [heq]
      rfl
    · exact congrArg Option.isSome hpost
    · have hheeded : name.startsWith "__" = true ∧ name ≠ "__name__" ∧ name ≠ "__qualname__" ∧
          name ≠ "DEFAULT" := by
        revert name
        simp [heeded]
      obtain ⟨hprivate, hfirst, hsecond, hother⟩ := hheeded
      have hraw := rawArm_lookup (t := t) (a := a)
        (ne_of_shared (ha.shared p.discField (by simp)) hprivate).symm hother default
      have hnumber := finish_number? hmade hname hraw
      unfold ClassHead.number? at hnumber ⊢
      exact (hlookup name hfirst hsecond).symm ▸ hnumber
    · dsimp only
      rw [heq]
    · dsimp only
      rw [heq]
    · have hne : checkMethod ≠ p.discField := fun h => ha.check (by simp [h])
      refine (hlookup checkMethod (by decide) (by decide)).trans ?_
      rw [finish_lookup hmade (by decide)]
      exact rawArm_lookup hne (by decide) default

end Globals

def UnionPlan.keys (p : UnionPlan) (name : String) : List ClassKey :=
  .type name :: p.arms.map fun a => .arm name a.attr

/-- The names that are bound while the classes of a union are made. -/
def UnionPlan.bound (p : UnionPlan) (name : String) : List String :=
  globalName name :: p.arms.map fun a => (ClassKey.arm name a.attr).bodyName

structure UnionPlan.Regular (s : Schema) (name : String) (p : UnionPlan) : Prop where
  attrs : (p.arms.map (·.attr)).Nodup
  arms : ∀ a ∈ p.arms, a.Regular s p
  builtins : ∀ x ∈ p.bound name, x ∉ reliedOn
  own : ∀ a ∈ p.arms, globalName name ≠ (ClassKey.arm name a.attr).bodyName
  labels : ∀ e, p.enum = some e → globalName e.name ∉ p.bound name

namespace Globals

variable {s : Schema} {c : Config} {t : TypeInfo} {p : UnionPlan} {a : ArmPlan} {g g' g'' : Globals}

lemma HasLabels.of_changes {names : List String} {keys : List ClassKey} (h : g.HasLabels p)
    (hchanges : Changes names keys g g') (hnames : names ⊆ p.bound t.name)
    (hp : p.Regular s t.name) : g'.HasLabels p := by
  intro e he
  obtain ⟨hhas, hregular, hshared⟩ := h e he
  exact ⟨hhas.of_changes hchanges fun hmem => hp.labels e he (hnames hmem), hregular, hshared⟩

structure ArmsMade (s : Schema) (name : String) (p : UnionPlan) (arms : List ArmPlan)
    (g g' : Globals) : Prop where
  undisturbed : g'.Undisturbed
  changes : Changes (arms.map fun a => (ClassKey.arm name a.attr).bodyName)
    (.type name :: arms.map fun a => .arm name a.attr) g g'
  union : ∃ h, g'.head? (.type name) = some h ∧ h.IsUnion name arms
  arms : ∀ a ∈ arms, ∃ h, g'.head? (.arm name a.attr) = some h ∧ h.IsArm s name p a

lemma ArmsMade.step (hmade : ArmsMade s t.name p arms g g') (hp : p.Regular s t.name)
    (hlabels : g.HasLabels p) (harms : arms ++ [a] <+: p.arms) (h : g'.loadArm s t p a = .ok g'') :
    ArmsMade s t.name p (arms ++ [a]) g g'' := by
  have hsub : ∀ b ∈ arms ++ [a], b ∈ p.arms := fun b hb => harms.subset hb
  have ha : a ∈ p.arms := hsub a (by simp)
  have hnames : arms.map (fun a => (ClassKey.arm t.name a.attr).bodyName) ⊆ p.bound t.name := by
    intro x hx
    obtain ⟨b, hb, rfl⟩ := mem_map.1 hx
    exact mem_cons_of_mem _ (mem_map_of_mem (hsub b (by simp [hb])))
  have hattrs : ∀ b ∈ arms, b.attr ≠ a.attr := by
    have hnodup := hp.attrs.sublist (harms.sublist.map (·.attr))
    rw [map_append, nodup_append] at hnodup
    exact fun b hb => hnodup.2.2 _ (mem_map_of_mem hb) _ (by simp)
  obtain ⟨union, hhead, hunion⟩ := hmade.union
  obtain ⟨head, harm, rfl⟩ := loadArm_ok hmade.undisturbed (hlabels.of_changes hmade.changes hnames hp)
    (hp.arms a ha) (fun b hb => (hp.arms b (hsub b (by simp [hb]))).shared _ (by simp)) hhead hunion h
  have hkey : (union.withArm t.name a.attr).key = .type t.name := hunion.key
  have hroot : ∀ r, (union.withArm t.name a.attr).key ≠ .root r := by simp [hkey]
  have hroot' : ∀ r, head.key ≠ .root r := by simp [harm.ordinary.key]
  have hchanged := ((Changes.setHead g' hroot).trans (Changes.setHead _ hroot')).trans
    (Changes.bind _ (ClassKey.arm t.name a.attr).bodyName (.cls (.arm t.name a.attr)))
  have hheads : ∀ key, (((g'.setHead (union.withArm t.name a.attr)).setHead head).bind
        (ClassKey.arm t.name a.attr).bodyName (.cls (.arm t.name a.attr))).head? key =
      if key = .arm t.name a.attr then some head
      else if key = .type t.name then some (union.withArm t.name a.attr)
      else g'.head? key := by
    intro key
    rw [(Changes.bind _ _ _).heads key (by simp), head?_setHead _ hroot', head?_setHead _ hroot,
      harm.ordinary.key, hkey]
  refine ⟨?_, ?_, ⟨union.withArm t.name a.attr, ?_, ?_⟩, ?_⟩
  · exact ((hmade.undisturbed.setHead (h := union.withArm t.name a.attr) hunion.readable).setHead
      harm.ordinary.readable).bind
      (hp.builtins _ (mem_cons_of_mem _ (mem_map_of_mem ha))) _
  · refine (hmade.changes.trans hchanged).mono (by simp) fun key hmem => ?_
    rw [hkey, harm.ordinary.key] at hmem
    simp only [mem_append, mem_cons, mem_map, not_mem_nil, or_false] at hmem ⊢
    grind
  · rw [hheads, if_neg (by simp), if_pos rfl]
  · exact hunion.withArm hattrs
  · intro b hb
    rcases mem_append.1 hb with hb | hb
    · obtain ⟨h, hh, harm⟩ := hmade.arms b hb
      refine ⟨h, ?_, harm⟩
      rw [hheads, if_neg (by simp [hattrs b hb]), if_neg (by simp), hh]
    · rw [mem_singleton.1 hb]
      exact ⟨head, by rw [hheads, if_pos rfl], harm⟩

lemma ArmsMade.run (hp : p.Regular s t.name) (hlabels : g.HasLabels p) {rest : List ArmPlan}
    (harms : arms ++ rest = p.arms) (hmade : ArmsMade s t.name p arms g g')
    (h : rest.foldlM (loadArm s t p) g' = .ok g'') : ArmsMade s t.name p p.arms g g'' := by
  induction rest generalizing arms g' with
  | nil =>
    cases h
    rwa [← harms, append_nil]
  | cons a rest ih =>
    obtain ⟨next, hnext, hrest⟩ := foldlM_cons_ok h
    have hsplit : (arms ++ [a]) ++ rest = p.arms := by simpa using harms
    exact ih hsplit (hmade.step hp hlabels ⟨rest, hsplit⟩ hnext) hrest

structure HasUnion (g : Globals) (s : Schema) (name : String) (p : UnionPlan) : Prop where
  bound : g.names.lookup (globalName name) = some (.cls (.type name))
  union : ∃ h, g.head? (.type name) = some h ∧ h.IsUnion name p.arms
  arms : ∀ a ∈ p.arms, ∃ h, g.head? (.arm name a.attr) = some h ∧ h.IsArm s name p a

lemma loadUnion_ok (hg : g.Undisturbed) (hp : p.Regular s t.name) (hlabels : g.HasLabels p)
    (h : g.loadUnion s c t p = .ok g') :
    g'.Undisturbed ∧ Changes (p.bound t.name) (p.keys t.name) g g' ∧ g'.HasUnion s t.name p := by
  unfold loadUnion at h
  rw [hg.readability_eq] at h
  obtain ⟨_, hreadable, h⟩ := bind_ok h
  cases hreadable
  obtain ⟨made, hmade, h⟩ := bind_ok h
  cases h
  set union : ClassHead :=
    { key := .type t.name, kind := .union, isGeneric := t.holdsOpaque, isReadable := true,
      own := layoutAttrs t c } with hunion
  have hroot : ∀ r, union.key ≠ .root r := by simp [hunion]
  have hfirst : Changes [globalName t.name] [.type t.name] g
      ((g.setHead union).bind (globalName t.name) (.cls (.type t.name))) :=
    (Changes.setHead g hroot).trans (Changes.bind _ _ _)
  have hstart : ArmsMade s t.name p [] ((g.setHead union).bind (globalName t.name) (.cls (.type t.name)))
      ((g.setHead union).bind (globalName t.name) (.cls (.type t.name))) := by
    refine ⟨(hg.setHead rfl).bind (hp.builtins _ (.head _)) _,
      (Changes.refl _).mono (by simp) (by simp), ⟨union, ?_, ⟨rfl, rfl, rfl, ?_, by simp⟩⟩, by simp⟩
    · rw [(Changes.bind _ _ _).heads _ (by simp), head?_setHead _ hroot, if_pos rfl]
    · intro x hx
      exact .inl (layoutAttrs_names t c ▸ mem_map_of_mem hx)
  have hall := hstart.run hp
    (hlabels.of_changes (t := t) hfirst (by simp [UnionPlan.bound]) hp) rfl hmade
  have hunbind := Changes.unbind made (p.arms.map fun a => (ClassKey.arm t.name a.attr).bodyName)
  have hown : globalName t.name ∉ p.arms.map fun a => (ClassKey.arm t.name a.attr).bodyName := by
    intro hmem
    obtain ⟨a, ha, heq⟩ := mem_map.1 hmem
    exact hp.own a ha heq.symm
  refine ⟨hall.undisturbed.unbind _, ?_, ?_, ?_, ?_⟩
  · refine ((hfirst.trans hall.changes).trans hunbind).mono ?_ ?_
    · simp [UnionPlan.bound]
    · simp [UnionPlan.keys]
  · rw [hunbind.names _ hown, hall.changes.names _ hown, lookup_bind_self]
  · obtain ⟨h, hh, hunion⟩ := hall.union
    exact ⟨h, by rw [hunbind.heads _ (by simp), hh], hunion⟩
  · intro a ha
    obtain ⟨h, hh, harm⟩ := hall.arms a ha
    exact ⟨h, by rw [hunbind.heads _ (by simp), hh], harm⟩

end Globals

end Xdr
