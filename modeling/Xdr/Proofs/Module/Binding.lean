import Xdr.Proofs.Schema.Accepted

/-!
# Names and classes of a module

A module is made of names, and the names of a specification are hardly changed on the way into it.
-/

namespace Xdr

open Naming List

variable {taken : List String} {name : String}

/-- Builtins that a module relies on. Whoever binds the last name changes all of them. -/
def reliedOn : List String := ["classmethod", "frozenset", "reversed", "__builtins__"]

/-- The method of an arm that checks a discriminant. -/
def checkMethod : String := "_check_discriminant"

/-- The name of an enum value makes it a member of the class. -/
def EnumClass.isMemberName (cls name : String) : Bool :=
  !isPrivate cls name && !isKept name && !isSpecial name

def TypeInfo.enum? (t : TypeInfo) : Option EnumType :=
  match t.definition with
  | .enum e => some e
  | _ => none

namespace Schema

variable (s : Schema)

def enums : List EnumType := s.types.filterMap TypeInfo.enum?

def unionPlans : List (String × UnionPlan) :=
  s.types.filterMap fun t => (s.plan? t.name).map (t.name, ·)

/-- The names that the classes of arms have while their union is made. -/
def armClasses : List String :=
  s.unionPlans.flatMap fun u => u.2.arms.map fun a => (ClassKey.arm u.1 a.attr).bodyName

def classFields : List (List String) :=
  s.types.filterMap (fun t => (s.fields? t.name).map fun fields => fields.map (·.1)) ++
    s.unionPlans.flatMap fun u => u.2.arms.map fun a => (s.payload a).map (·.1) ++ [u.2.discField]

def readNames : List String :=
  s.types.map (fun t => globalName t.name) ++
    s.enums.flatMap (·.variants.map fun v => enumMemberName v.1) ++ s.classFields.flatten ++
    s.unionPlans.flatMap (·.2.arms.map (·.attr))

/-- Every name of the module and of its classes stands for one thing, and none for what the module
relies on. -/
structure Unambiguous : Prop where
  exports : s.exports.Nodup
  fields : ∀ names ∈ s.classFields, names.Nodup
  builtins : ∀ name ∈ s.exports ++ s.armClasses, name ∉ reliedOn
  armClasses : ∀ name ∈ s.armClasses, name ∉ s.exports
  check : ∀ u ∈ s.unionPlans, ∀ a ∈ u.2.arms,
    checkMethod ∉ a.attr :: ((s.payload a).map (·.1) ++ [u.2.discField])
  /-- No name is private to a class. -/
  shared : ∀ name ∈ s.readNames, name.startsWith "__" = false
  members : ∀ e ∈ s.enums, ∀ v ∈ e.variants,
    EnumClass.isMemberName (globalName e.name) (enumMemberName v.1) = true

instance : Decidable s.Unambiguous :=
  decidable_of_iff
    (s.exports.Nodup ∧ (∀ names ∈ s.classFields, names.Nodup) ∧
      (∀ name ∈ s.exports ++ s.armClasses, name ∉ reliedOn) ∧
      (∀ name ∈ s.armClasses, name ∉ s.exports) ∧
      (∀ u ∈ s.unionPlans, ∀ a ∈ u.2.arms,
        checkMethod ∉ a.attr :: ((s.payload a).map (·.1) ++ [u.2.discField])) ∧
      (∀ name ∈ s.readNames, name.startsWith "__" = false) ∧
      ∀ e ∈ s.enums, ∀ v ∈ e.variants,
        EnumClass.isMemberName (globalName e.name) (enumMemberName v.1) = true)
    ⟨fun ⟨h₁, h₂, h₃, h₄, h₅, h₆, h₇⟩ => ⟨h₁, h₂, h₃, h₄, h₅, h₆, h₇⟩,
      fun ⟨h₁, h₂, h₃, h₄, h₅, h₆, h₇⟩ => ⟨h₁, h₂, h₃, h₄, h₅, h₆, h₇⟩⟩

end Schema

namespace Naming

lemma ne_of_shared {a b : String} (ha : a.startsWith "__" = false) (hb : b.startsWith "__") :
    a ≠ b := by
  rintro rfl
  rw [hb] at ha
  cases ha

lemma privateName_of_shared (h : name.startsWith "__" = false) (cls : String) :
    privateName cls name = name := by
  simp [privateName, h]

lemma length_lt_append_underscore (name : String) : name.length < (name ++ "_").length := by
  rw [String.length_append]
  exact Nat.lt_add_of_pos_right (by decide)

lemma length_le_freshen (taken : List String) (n : Nat) (name : String) :
    name.length ≤ (freshen taken n name).length := by
  induction n generalizing name with
  | zero => exact le_rfl
  | succ n ih =>
    rw [freshen]
    split_ifs
    · exact (length_lt_append_underscore name).le.trans (ih (name ++ "_"))
    · exact le_rfl

lemma freshen_erase {short : String} (n : Nat) (h : short.length < name.length) :
    freshen (taken.erase short) n name = freshen taken n name := by
  induction n generalizing name with
  | zero => rfl
  | succ n ih =>
    have hne : name ≠ short := fun heq => by simp [heq] at h
    have hcontains : (taken.erase short).contains name = taken.contains name := by
      rw [Bool.eq_iff_iff, contains_iff_mem, contains_iff_mem, mem_erase_of_ne hne]
    rw [freshen, freshen, hcontains, ih (h.trans (length_lt_append_underscore name))]

lemma freshen_notMem {n : Nat} (hn : taken.length ≤ n) (name : String) :
    freshen taken n name ∉ taken := by
  induction n generalizing taken name with
  | zero => simp [eq_nil_of_length_eq_zero (Nat.le_zero.1 hn)]
  | succ n ih =>
    rw [freshen]
    split_ifs with htaken
    · -- the name itself is taken, so one name fewer is in the way of longer ones
      have hmem := contains_iff_mem.1 htaken
      have hlt := length_lt_append_underscore name
      have hfewer : (taken.erase name).length ≤ n := by
        rw [length_erase_of_mem hmem]
        omega
      have hfree := ih hfewer (name ++ "_")
      rw [freshen_erase n hlt] at hfree
      have hlonger := length_le_freshen taken n (name ++ "_")
      have hne : freshen taken n (name ++ "_") ≠ name := fun heq => by
        rw [heq] at hlonger
        omega
      rwa [mem_erase_of_ne hne] at hfree
    · exact fun hmem => htaken (contains_iff_mem.2 hmem)

lemma variantNamesFrom_fresh (enum : Option EnumType) (labels : List Label) :
    ∀ taken, (variantNamesFrom enum taken labels).Nodup ∧
      ∀ name ∈ variantNamesFrom enum taken labels, name ∉ taken := by
  induction labels with
  | nil => simp [variantNamesFrom]
  | cons label rest ih =>
    intro taken
    have hfirst := freshen_notMem (le_refl taken.length) (variantName enum label)
    rw [variantNamesFrom]
    obtain ⟨hnodup, hfresh⟩ := ih (freshen taken taken.length (variantName enum label) :: taken)
    refine ⟨nodup_cons.2 ⟨fun hmem => ?_, hnodup⟩, ?_⟩
    · exact hfresh _ hmem (.head _)
    · rintro name hname
      rcases mem_cons.1 hname with rfl | hname
      · exact hfirst
      · exact fun hmem => hfresh name hname (.tail _ hmem)

end Naming

lemma Schema.unionPlan?_attrs_nodup {s : Schema} {u : UnionType} {p : UnionPlan}
    (hp : s.unionPlan? u = some p) : (p.arms.map (·.attr)).Nodup := by
  obtain ⟨firsts, hfirsts, hplan⟩ := Option.bind_eq_some_iff.1 hp
  cases hplan
  obtain ⟨hnodup, hfresh⟩ := variantNamesFrom_fresh (s.enumOf? u.discriminant.toShape) firsts
    (if u.fallback.isSome then [defaultVariant] else [])
  have hlength : (variantNames (s.enumOf? u.discriminant.toShape) u.fallback.isSome firsts).length ≤
      u.arms.length := by rw [length_variantNames, (mapM_eq_some_iff.1 hfirsts).length_eq]
  have hnames : (((variantNames (s.enumOf? u.discriminant.toShape) u.fallback.isSome firsts).zip
      u.arms).map fun x => (⟨x.1, x.2.values, x.2.decl, false⟩ : ArmPlan)).map (·.attr) =
        variantNames (s.enumOf? u.discriminant.toShape) u.fallback.isSome firsts := by
    rw [map_map]
    exact map_fst_zip hlength
  show (List.map _ (List.map _ _ ++ _)).Nodup
  rw [map_append, hnames, map_map]
  cases hfall : u.fallback with
  | none =>
    rw [hfall] at hnodup
    simpa [variantNames] using hnodup
  | some d =>
    rw [hfall] at hnodup hfresh
    refine nodup_append.2 ⟨hnodup, by simp, ?_⟩
    rintro name hname other hother rfl
    exact hfresh name hname (by simpa using hother)

/-! ## Bindings of a module -/

variable {name x : String} {h : ClassHead}

section

variable {ε α β : Type}

lemma bind_ok {x : Except ε α} {f : α → Except ε β} {b : β} (h : x >>= f = .ok b) :
    ∃ a, x = .ok a ∧ f a = .ok b := by
  cases x with
  | error e => cases h
  | ok a => exact ⟨a, rfl, h⟩

variable {f : β → α → Except ε β}

lemma foldlM_cons_ok {x : α} {rest : List α} {a b : β} (h : (x :: rest).foldlM f a = .ok b) :
    ∃ c, f a x = .ok c ∧ rest.foldlM f c = .ok b := by
  rw [foldlM_cons] at h
  exact bind_ok h

lemma foldlM_keeps {P : β → Prop} {xs : List α} {a b : β}
    (hstep : ∀ x ∈ xs, ∀ a b, P a → f a x = .ok b → P b) (ha : P a) (h : xs.foldlM f a = .ok b) :
    P b := by
  induction xs generalizing a with
  | nil =>
    cases h
    exact ha
  | cons x rest ih =>
    obtain ⟨c, hfirst, hrest⟩ := foldlM_cons_ok h
    exact ih (fun y hy => hstep y (.tail x hy)) (hstep x (.head _) a c ha hfirst)
      hrest

end

namespace Globals

lemma lookup_bind (g : Globals) (name : String) (v : Value) (x : String) :
    (g.bind name v).names.lookup x = if x = name then some v else g.names.lookup x := by
  have hothers := lookup_filter (· != name) x g.names
  rw [bind, lookup_cons]
  by_cases hx : x = name
  · simp [hx]
  · rw [hothers, beq_eq_false_iff_ne.2 hx]
    simp [hx]

lemma lookup_bind_self (g : Globals) (name : String) (v : Value) :
    (g.bind name v).names.lookup name = some v := by
  rw [lookup_bind, if_pos rfl]

lemma lookup_bind_of_ne (g : Globals) (v : Value) (h : x ≠ name) :
    (g.bind name v).names.lookup x = g.names.lookup x := by
  rw [lookup_bind, if_neg h]

lemma lookup_unbind (g : Globals) {names : List String} (h : x ∉ names) :
    (g.unbind names).names.lookup x = g.names.lookup x := by
  have hothers := lookup_filter (fun n => !names.contains n) x g.names
  rw [unbind, hothers, if_pos (by simpa using h)]

lemma head?_setHead (g : Globals) (hkey : ∀ r, h.key ≠ .root r) (key : ClassKey) :
    (g.setHead h).head? key = if key = h.key then some h else g.head? key := by
  by_cases hroot : ∃ r, key = .root r
  · obtain ⟨r, rfl⟩ := hroot
    rw [if_neg fun heq => hkey r heq.symm]
    cases r <;> rfl
  · have hhead : ∀ g : Globals, g.head? key = g.heads.find? (·.key = key) := by
      intro g
      cases key with
      | root r => exact absurd ⟨r, rfl⟩ hroot
      | _ => rfl
    rw [hhead, hhead, setHead, List.find?_append]
    by_cases hsame : key = h.key
    · have hnone : (g.heads.filter (·.key != h.key)).find? (·.key = key) = none := by
        rw [List.find?_eq_none]
        intro x hx
        simpa [hsame] using (mem_filter.1 hx).2
      rw [hnone, Option.none_or, if_pos hsame, List.find?_cons_of_pos (by simp [hsame])]
    · have hothers : (g.heads.filter (·.key != h.key)).find? (·.key = key) =
          g.heads.find? (·.key = key) := by
        rw [List.find?_filter]
        refine List.find?_congr fun x _ => ?_
        by_cases hx : x.key = key
        · simp [hx, hsame]
        · simp [hx]
      have hlast : [h].find? (·.key = key) = none := by simp [Ne.symm hsame]
      rw [hothers, hlast, Option.or_none, if_neg hsame]

structure Changes (names : List String) (keys : List ClassKey) (g g' : Globals) : Prop where
  enums : g'.enums = g.enums
  names : ∀ x ∉ names, g'.names.lookup x = g.names.lookup x
  heads : ∀ key ∉ keys, g'.head? key = g.head? key

namespace Changes

variable {names more : List String} {keys others : List ClassKey} {g g' g'' : Globals}

lemma refl (g : Globals) : Changes [] [] g g := ⟨rfl, fun _ _ => rfl, fun _ _ => rfl⟩

lemma trans (h : Changes names keys g g') (h' : Changes more others g' g'') :
    Changes (names ++ more) (keys ++ others) g g'' where
  enums := h'.enums.trans h.enums
  names x hx := by
    simp only [mem_append, not_or] at hx
    rw [h'.names x hx.2, h.names x hx.1]
  heads key hkey := by
    simp only [mem_append, not_or] at hkey
    rw [h'.heads key hkey.2, h.heads key hkey.1]

lemma mono (h : Changes names keys g g') (hnames : names ⊆ more) (hkeys : keys ⊆ others) :
    Changes more others g g' where
  enums := h.enums
  names x hx := h.names x fun hmem => hx (hnames hmem)
  heads key hkey := h.heads key fun hmem => hkey (hkeys hmem)

lemma bind (g : Globals) (name : String) (v : Value) : Changes [name] [] g (g.bind name v) where
  enums := rfl
  names x hx := lookup_bind_of_ne g v fun heq => hx (mem_singleton.2 heq)
  heads key _ := by cases key <;> rfl

lemma unbind (g : Globals) (names : List String) : Changes names [] g (g.unbind names) where
  enums := rfl
  names x hx := lookup_unbind g hx
  heads key _ := by cases key <;> rfl

lemma setHead (g : Globals) (hkey : ∀ r, h.key ≠ .root r) :
    Changes [] [h.key] g (g.setHead h) where
  enums := rfl
  names _ _ := rfl
  heads key hkeys := by
    rw [head?_setHead g hkey, if_neg fun heq => hkeys (mem_singleton.2 heq)]

end Changes

structure Undisturbed (g : Globals) : Prop where
  builtins : ∀ name ∈ reliedOn, g.names.lookup name = none
  enums : ∀ e ∈ g.enums, e.plain = []
  enumNames : (g.enums.map (·.name)).Nodup
  readable : ∀ h ∈ g.heads, h.isReadable = true

namespace Undisturbed

variable {g : Globals} (hg : g.Undisturbed)

include hg

lemma builtin_of_lookup (h : g.names.lookup name = none) : g.builtin name = .ok none := by
  have hall := hg.builtins "__builtins__" (by decide)
  have hnone : g.names.any (·.1 = "__builtins__") = false := by
    rw [any_eq_false]
    intro entry hentry heq
    have hne := lookup_eq_none_iff.1 hall entry hentry
    simp_all
  simp [builtin, h, hnone]

lemma builtin_eq (h : name ∈ reliedOn) : g.builtin name = .ok none :=
  hg.builtin_of_lookup (hg.builtins name h)

lemma isSpoilt_eq (v : Value) (name : String) : g.isSpoilt v name = false := by
  cases v with
  | member enum variant n =>
    simp only [isSpoilt, Option.any_eq_false]
    intro e he
    have hmem : e ∈ g.enums := mem_of_find?_eq_some he
    simp [EnumClass.hasPlain, hg.enums e hmem]
  | _ => rfl

lemma bind (hname : name ∉ reliedOn) (v : Value) : (g.bind name v).Undisturbed where
  builtins other hother := by
    have hne : other ≠ name := fun heq => hname (heq ▸ hother)
    rw [lookup_bind_of_ne g v hne, hg.builtins other hother]
  enums := hg.enums
  enumNames := hg.enumNames
  readable := hg.readable

lemma unbind (names : List String) : (g.unbind names).Undisturbed where
  builtins other hother := by
    have hothers := lookup_filter (fun n => !names.contains n) other g.names
    rw [Globals.unbind, hothers, hg.builtins other hother, ite_self]
  enums := hg.enums
  enumNames := hg.enumNames
  readable := hg.readable

lemma setHead (hh : h.isReadable) : (g.setHead h).Undisturbed where
  builtins := hg.builtins
  enums := hg.enums
  enumNames := hg.enumNames
  readable x hx := by
    rcases mem_append.1 hx with hx | hx
    · exact hg.readable x (mem_filter.1 hx).1
    · rwa [mem_singleton.1 hx]

end Undisturbed

end Globals

/-! ## Classes of a module -/

variable {name : String}

lemma mergeFields_eq_self {fields : List Field} (h : (fields.map (·.name)).Nodup) :
    mergeFields fields = fields := by
  induction fields with
  | nil => rfl
  | cons f rest ih =>
    rw [map_cons, nodup_cons] at h
    have hnone : rest.filter (·.name = f.name) = [] := by
      rw [filter_eq_nil_iff]
      intro g hg
      simpa using fun heq => h.1 (mem_map.2 ⟨g, hg, heq⟩)
    have hall : rest.filter (·.name != f.name) = rest := by
      rw [filter_eq_self]
      intro g hg
      simpa using fun heq => h.1 (mem_map.2 ⟨g, hg, heq⟩)
    simp [mergeFields, ih h.2, hnone, hall]

namespace Globals

lemma complete_name {g : Globals} {h : ClassHead} {f f' : Field} (hf : g.complete h f = .ok f') :
    f'.name = f.name := by
  unfold complete at hf
  simp only at hf
  split_ifs at hf
  split at hf
  · split_ifs at hf
    cases hf
    rfl
  · cases hf
    rfl

lemma completeAll_names {g : Globals} {h : ClassHead} {fields made : List Field}
    (hfields : (fields.map (·.name)).Nodup) (hmade : g.completeAll h fields = .ok made) :
    made.map (·.name) = fields.map (·.name) := by
  have hnames : ∀ {fields made : List Field}, fields.mapM (g.complete h) = .ok made →
      made.map (·.name) = fields.map (·.name) := by
    intro fields
    induction fields with
    | nil =>
      intro made hmade
      cases hmade
      rfl
    | cons f rest ih =>
      intro made hmade
      rw [mapM_cons] at hmade
      obtain ⟨f', hf', hmade⟩ := bind_ok hmade
      obtain ⟨rest', hrest', hmade⟩ := bind_ok hmade
      cases hmade
      rw [map_cons, map_cons, complete_name hf', ih hrest']
  unfold completeAll at hmade
  rw [mergeFields_eq_self hfields] at hmade
  obtain ⟨completed, hcompleted, hmade⟩ := bind_ok hmade
  split_ifs at hmade
  cases hmade
  exact hnames hcompleted

end Globals

def heeded : List String := ["__getattribute__", "__setattr__", "__eq__"]

structure ClassHead.Ordinary (h : ClassHead) (key : ClassKey) (fields : List String) : Prop where
  key : h.key = key
  fields : h.fields.map (·.name) = fields
  readable : h.isReadable = true
  bare : h.kind.isBare = false
  returns : h.callsBack = false
  numbers : ∀ name ∈ heeded, h.number? name = none

namespace Globals

def finished : List String :=
  ["__doc__", "__dataclass_fields__", "__abstractmethods__", "__init__", "__eq__", "__repr__",
   "__match_args__", "__hash__"]

section

variable {g : Globals} {h made : ClassHead} {fields : List Field}
  (hmade : g.finish h fields = .ok made)

include hmade

lemma finish_eq : made = { h with fields, own := made.own } := by
  unfold finish at hmade
  obtain ⟨text, -, hmade⟩ := bind_ok hmade
  cases hmade
  rfl

lemma finish_own : ∃ always methods : Fields,
    (∀ a ∈ always ++ methods, a.1 ∈ finished) ∧
    (methods.lookup "__eq__" = some (.thing "function") ∧ "__eq__" ∉ always.map (·.1)) ∧
    made.own = always ++ h.own.filter (fun a => !always.any (·.1 = a.1)) ++ methods := by
  unfold finish at hmade
  obtain ⟨text, -, hmade⟩ := bind_ok hmade
  cases hmade
  refine ⟨_, _, ?_, ⟨?_, ?_⟩, rfl⟩
  · cases h.number? "__abstractmethods__" <;> simp [finished]
  · rfl
  · cases h.number? "__abstractmethods__" <;> simp

lemma finish_lookup (hname : name ∉ finished) : made.own.lookup name = h.own.lookup name := by
  obtain ⟨always, methods, hkeys, -, hown⟩ := finish_own hmade
  have hnone : ∀ l : Fields, (∀ a ∈ l, a.1 ∈ finished) → l.lookup name = none := by
    intro l hl
    refine lookup_of_notMem fun hmem => ?_
    obtain ⟨a, ha, rfl⟩ := mem_map.1 hmem
    exact hname (hl a ha)
  have hkept : (always.any fun a => a.1 = name) = false := by
    rw [any_eq_false]
    intro a ha heq
    exact hname (by simpa using (of_decide_eq_true heq) ▸ hkeys a (mem_append_left _ ha))
  rw [hown, lookup_append, lookup_append, hnone always fun a ha => hkeys a (by simp [ha]),
    hnone methods fun a ha => hkeys a (by simp [ha]), Option.none_or, Option.or_none,
    lookup_filter (fun k => !always.any fun a => a.1 = k), hkept]
  rfl

lemma finish_number? (hname : name ∈ heeded) (hown : h.own.lookup name = none) :
    made.number? name = none := by
  by_cases heq : name = "__eq__"
  · subst heq
    obtain ⟨always, methods, -, ⟨hmethod, hfree⟩, hmadeOwn⟩ := finish_own hmade
    have hlookup : made.own.lookup "__eq__" = some (.thing "function") := by
      rw [hmadeOwn, lookup_append, lookup_append, lookup_of_notMem hfree,
        lookup_filter (fun k => !always.any fun a => a.1 = k), hown, hmethod]
      simp
    rw [ClassHead.number?, hlookup]
  · have hother : name ∉ finished := by
      rcases mem_cons.1 hname with rfl | hname
      · decide
      · rcases mem_cons.1 hname with rfl | hname
        · decide
        · exact absurd (mem_singleton.1 hname) heq
    rw [ClassHead.number?, finish_lookup hmade hother, hown]

end

lemma Undisturbed.readability_eq {g : Globals} (hg : g.Undisturbed) : g.readability = .ok true := by
  rw [readability, hg.builtin_eq (by decide)]
  rfl

lemma layoutAttrs_names (t : TypeInfo) (c : Config) :
    (layoutAttrs t c).map (·.1) = ["WIRE_SIZE", "STRICT_PADDING"] := rfl

lemma loadRecord_ok {c : Config} {g g' : Globals} {t : TypeInfo} {kind : ClassKind}
    {fields : List Field} (hg : g.Undisturbed) (hkind : kind.isBare = false)
    (hfields : (fields.map (·.name)).Nodup) (h : g.loadRecord c t kind fields = .ok g') :
    ∃ head : ClassHead, head.Ordinary (.type t.name) (fields.map (·.name)) ∧ head.kind = kind ∧
      g' = (g.setHead head).bind (globalName t.name) (.cls (.type t.name)) := by
  unfold loadRecord at h
  rw [hg.readability_eq] at h
  obtain ⟨_, hreadable, h⟩ := bind_ok h
  cases hreadable
  obtain ⟨completed, hcompleted, h⟩ := bind_ok h
  obtain ⟨head, hhead, h⟩ := bind_ok h
  cases h
  have heq := finish_eq hhead
  refine ⟨head, ⟨?_, ?_, ?_, ?_, ?_, fun name hname => ?_⟩, ?_, rfl⟩
  · rw [heq]
  · rw [heq]
    exact completeAll_names hfields hcompleted
  · rw [heq]
  · rw [heq]
    exact hkind
  · rw [heq]
  · refine finish_number? hhead hname (lookup_of_notMem ?_)
    rw [layoutAttrs_names]
    intro hmem
    revert name
    decide
  · rw [heq]

end Globals

/-! ## Enums of a module -/

variable {e : EnumType} {g g' : Globals}

namespace EnumClass

lemma add_ok {cls : String} {key : String → String} {e made : EnumClass} {value : String × Int}
    (hname : isMemberName cls (key value.1)) (h : e.add cls key value = .ok made) :
    made = { e with members := e.members ++ [value] } ∧ ∀ m ∈ e.members, key m.1 ≠ key value.1 := by
  simp only [isMemberName, Bool.and_eq_true, Bool.not_eq_true'] at hname
  obtain ⟨⟨hprivate, hkept⟩, hspecial⟩ := hname
  simp only [add, hprivate, hkept, hspecial, Bool.false_eq_true, ite_false] at h
  split_ifs at h with hdouble
  cases h
  exact ⟨rfl, by simpa using hdouble⟩

def ofMembers (e : EnumType) : EnumClass := ⟨e.name, e.variants, []⟩

lemma ofEnum_ok {made : EnumClass} (h : ofEnum e = .ok made)
    (hshared : ∀ v ∈ e.variants, (enumMemberName v.1).startsWith "__" = false)
    (hnames : ∀ v ∈ e.variants, isMemberName (globalName e.name) (enumMemberName v.1)) :
    made = ofMembers e ∧ (e.variants.map fun v => enumMemberName v.1).Nodup := by
  have hkey : ∀ v ∈ e.variants, privateName (globalName e.name) (enumMemberName v.1) =
      enumMemberName v.1 := fun v hv => privateName_of_shared (hshared v hv) _
  obtain ⟨filled, hfilled, hfinish⟩ := bind_ok h
  have hfold : ∀ (rest done : List (String × Int)), done ++ rest = e.variants →
      (done.map fun v => enumMemberName v.1).Nodup →
      rest.foldlM (add (globalName e.name)
        fun v => privateName (globalName e.name) (enumMemberName v)) ⟨e.name, done, []⟩ = .ok filled →
      filled = ofMembers e ∧ (e.variants.map fun v => enumMemberName v.1).Nodup := by
    intro rest
    induction rest with
    | nil =>
      intro done hdone hnodup hfilled
      rw [append_nil] at hdone
      cases hfilled
      exact ⟨by rw [hdone, ofMembers], hdone ▸ hnodup⟩
    | cons v rest ih =>
      intro done hdone hnodup hfilled
      have hv : v ∈ e.variants := by simp [← hdone]
      obtain ⟨next, hnext, hrest⟩ := foldlM_cons_ok hfilled
      obtain ⟨rfl, hnew⟩ := add_ok (by rw [hkey v hv]; exact hnames v hv) hnext
      refine ih (done ++ [v]) (by simp [← hdone]) ?_ hrest
      rw [map_append, nodup_append]
      refine ⟨hnodup, by simp, ?_⟩
      rintro name hname other hother rfl
      obtain ⟨m, hm, rfl⟩ := mem_map.1 hname
      have hm' : m ∈ e.variants := by simp [← hdone, hm]
      have hne := hnew m hm
      rw [hkey m hm', hkey v hv] at hne
      exact hne (by simpa using hother)
  obtain ⟨rfl, hnodup⟩ := hfold e.variants [] rfl (by simp) hfilled
  refine ⟨?_, hnodup⟩
  unfold finish at hfinish
  split_ifs at hfinish
  cases hfinish
  rfl

end EnumClass

def EnumType.exports (e : EnumType) : List String :=
  globalName e.name :: e.variants.map fun v => globalName v.1

structure EnumType.Regular (e : EnumType) : Prop where
  shared : ∀ v ∈ e.variants, (enumMemberName v.1).startsWith "__" = false
  members : ∀ v ∈ e.variants, EnumClass.isMemberName (globalName e.name) (enumMemberName v.1) = true

namespace Globals

structure HasEnum (g : Globals) (e : EnumType) : Prop where
  name : g.names.lookup (globalName e.name) = some (.cls (.enum e.name))
  cls : EnumClass.ofMembers e ∈ g.enums
  members : (e.variants.map fun v => enumMemberName v.1).Nodup

lemma loadEnum_ok (he : e.Regular) (h : g.loadEnum e = .ok g') (hnodup : e.exports.Nodup) :
    g'.enums = g.enums ++ [EnumClass.ofMembers e] ∧ g'.heads = g.heads ∧
      (∀ x ∉ e.exports, g'.names.lookup x = g.names.lookup x) ∧ g'.HasEnum e := by
  obtain ⟨made, hmade, h⟩ := bind_ok h
  obtain ⟨rfl, hmembers⟩ := EnumClass.ofEnum_ok hmade he.shared he.members
  have hkept : g'.enums = g.enums ++ [EnumClass.ofMembers e] ∧ g'.heads = g.heads ∧
      (∀ x ∉ e.exports, g'.names.lookup x = g.names.lookup x) ∧
      g'.names.lookup (globalName e.name) = some (.cls (.enum e.name)) := by
    refine foldlM_keeps (P := fun g' => g'.enums = g.enums ++ [EnumClass.ofMembers e] ∧
      g'.heads = g.heads ∧ (∀ x ∉ e.exports, g'.names.lookup x = g.names.lookup x) ∧
      g'.names.lookup (globalName e.name) = some (.cls (.enum e.name))) ?_ ?_ h
    · rintro ⟨variant, n⟩ hv a b ⟨henums, hheads, hnames, hname⟩ hb
      obtain ⟨_, -, hb⟩ := bind_ok hb
      obtain ⟨found, -, hb⟩ := bind_ok hb
      cases hb
      have hmem : globalName variant ∈ e.variants.map fun v => globalName v.1 :=
        mem_map.2 ⟨(variant, n), hv, rfl⟩
      refine ⟨henums, hheads, fun x hx => ?_, ?_⟩
      · have hne : x ≠ globalName variant := fun heq => hx (heq ▸ .tail _ hmem)
        rw [lookup_bind_of_ne _ _ hne, hnames x hx]
      · have hne : globalName e.name ≠ globalName variant := fun heq =>
          (nodup_cons.1 hnodup).1 (heq ▸ hmem)
        rw [lookup_bind_of_ne _ _ hne, hname]
    · refine ⟨rfl, rfl, fun x hx => ?_, ?_⟩
      · exact lookup_bind_of_ne _ _ fun heq => hx (heq ▸ (.head _))
      · exact lookup_bind_self _ _ _
  obtain ⟨henums, hheads, hnames, hname⟩ := hkept
  exact ⟨henums, hheads, hnames, hname, by simp [henums], hmembers⟩

lemma loadEnums_ok {types : List TypeInfo}
    (hregular : ∀ e ∈ types.filterMap TypeInfo.enum?, e.Regular)
    (hnodup : ((types.filterMap TypeInfo.enum?).flatMap EnumType.exports).Nodup)
    (h : types.foldlM (fun s t =>
      match t.definition with
      | .enum e => (s.loadEnum e).mapError LoadFault.statement
      | _ => .ok s) g = .ok g') :
    g'.enums = g.enums ++ (types.filterMap TypeInfo.enum?).map EnumClass.ofMembers ∧
      g'.heads = g.heads ∧
      (∀ x ∉ (types.filterMap TypeInfo.enum?).flatMap EnumType.exports,
        g'.names.lookup x = g.names.lookup x) ∧
      ∀ e ∈ types.filterMap TypeInfo.enum?, g'.HasEnum e := by
  induction types generalizing g with
  | nil =>
    cases h
    simp
  | cons t rest ih =>
    obtain ⟨next, hnext, hrest⟩ := foldlM_cons_ok h
    cases hd : t.definition with
    | enum e =>
      have henum : t.enum? = some e := by simp [TypeInfo.enum?, hd]
      rw [filterMap_cons_some henum] at hregular hnodup ⊢
      rw [flatMap_cons, nodup_append] at hnodup
      obtain ⟨hown, hothers, hdisjoint⟩ := hnodup
      obtain ⟨hregular, hregulars⟩ := forall_mem_cons.1 hregular
      have hload : g.loadEnum e = .ok next := by
        simp only [hd] at hnext
        cases hloaded : g.loadEnum e with
        | error f => simp [hloaded, Except.mapError] at hnext
        | ok _ => simpa [hloaded, Except.mapError] using hnext
      obtain ⟨henums, hheads, hnames, hname⟩ := loadEnum_ok hregular hload hown
      obtain ⟨henums', hheads', hnames', hall⟩ := ih hregulars hothers hrest
      refine ⟨by simp [henums', henums], hheads'.trans hheads, fun x hx => ?_, ?_⟩
      · simp only [flatMap_cons, mem_append, not_or] at hx
        rw [hnames' x hx.2, hnames x hx.1]
      · refine forall_mem_cons.2 ⟨⟨?_, by simp [henums', hname.cls], hname.members⟩, hall⟩
        rw [hnames' _ fun hmem => hdisjoint _ (.head _) _ hmem rfl, hname.name]
    | _ =>
      have henum : t.enum? = none := by simp [TypeInfo.enum?, hd]
      rw [filterMap_cons_none henum] at hregular hnodup ⊢
      simp only [hd, Except.ok.injEq] at hnext
      subst hnext
      exact ih hregular hnodup hrest

lemma HasEnum.of_changes {names : List String} {keys : List ClassKey} (h : g.HasEnum e)
    (hchanges : Changes names keys g g') (hname : globalName e.name ∉ names) : g'.HasEnum e where
  name := (hchanges.names _ hname).trans h.name
  cls := hchanges.enums ▸ h.cls
  members := h.members

lemma Undisturbed.enum?_eq (hg : g.Undisturbed) (h : EnumClass.ofMembers e ∈ g.enums) :
    g.enum? e.name = some (EnumClass.ofMembers e) :=
  find?_of_nodup_map hg.enumNames h

lemma HasEnum.attr_eq (h : g.HasEnum e) (hg : g.Undisturbed) (he : e.Regular) {variant : String}
    {n : Int} (hv : (variant, n) ∈ e.variants) :
    g.attr (.cls (.enum e.name)) (enumMemberName variant) = .ok (.member e.name variant n) := by
  have hshared := he.shared _ hv
  have hbuiltin : (EnumClass.ofMembers e).builtinAttr? (enumMemberName variant) = none := by
    generalize enumMemberName variant = name at hshared
    unfold EnumClass.builtinAttr?
    split <;> first | (simp at hshared; done) | rfl
  have hvalue : (EnumClass.ofMembers e).valueAttr? (enumMemberName variant) =
      some (.member e.name variant n) := by
    have hfind := find?_of_nodup_map h.members hv
    simp only [EnumClass.valueAttr?, EnumClass.ofMembers, hfind]
  have hfound : g.attr? (.cls (.enum e.name)) (enumMemberName variant) =
      some (.member e.name variant n) := by
    simp [attr?, classAttr?, enumOf?, hg.enum?_eq h.cls, EnumClass.attr?, hbuiltin,
      EnumClass.sharedAttr?, hvalue]
  simp [attr, veil?, hfound]

end Globals

end Xdr
