import Xdr.Proofs.Identifiers
import Xdr.Proofs.Schema.SizeEquations

/-!
# Names that the generated code relies on

A definition captures a name when the generated code relies on that name for something else. Most of
these names are reserved, and no definition gets them.
-/

namespace Xdr

open Naming List

variable {terms : List SizeTerm} {k : ClassText} {l : Chain} {sourceName : Option String}
  {lines : Lines} {α : Type} {a : ArmPlan} {fields : List (String × Decl)}

namespace Emit

open Phrase Lines

section

variable (name body : String) (p q : Phrase) (ps : List Phrase)

@[simp] lemma reliedNames_attr : (attr p name).reliedNames = p.reliedNames := by simp [attr]

@[simp] lemma reliedNames_join (mark : String) :
    (join mark ps).reliedNames = ps.flatMap Phrase.reliedNames := by
  induction ps with
  | nil => rfl
  | cons p ps ih =>
    cases ps with
    | nil => simp [join]
    | cons q rest => simp_all [join]

@[simp] lemma reliedNames_call :
    (call p ps).reliedNames = p.reliedNames ++ ps.flatMap Phrase.reliedNames := by simp [call, commas]

@[simp] lemma reliedNames_lambda (parameters : List String) :
    (lambda parameters p).reliedNames = parameters ++ p.reliedNames := by
  simp [lambda, commas, flatMap_map]

@[simp] lemma reliedNames_method :
    (method name ps p).reliedNames = ps.flatMap Phrase.reliedNames ++ p.reliedNames := by
  simp [method, commas]

@[simp] lemma reliedNames_assign :
    (assign p q).reliedNames = p.reliedNames ++ q.reliedNames := by simp [assign]

@[simp] lemma reliedNames_tuple : (tuple ps).reliedNames = ps.flatMap Phrase.reliedNames := by
  unfold tuple
  split <;> simp [commas]

lemma reliedNames_flatMap (l : List α) (f : α → Lines) :
    Lines.reliedNames (l.flatMap f) = l.flatMap fun a => (f a).reliedNames := flatMap_assoc

end

/-- The names are reserved, but for some. -/
def Within (P : String → Prop) (names : List String) : Prop :=
  ∀ name ∈ names, name ∈ globalReserved ∨ P name

section

variable {P : String → Prop} {s : Schema} {c : Config} {t : TypeInfo} {d : Shape} {value : Phrase}

@[simp] lemma within_nil : Within P [] := nofun

@[simp] lemma within_cons {name : String} {names : List String} :
    Within P (name :: names) ↔ (name ∈ globalReserved ∨ P name) ∧ Within P names :=
  forall_mem_cons

@[simp] lemma within_append {xs ys : List String} :
    Within P (xs ++ ys) ↔ Within P xs ∧ Within P ys := forall_mem_append

@[simp] lemma within_flatMap {l : List α} {f : α → List String} :
    Within P (l.flatMap f) ↔ ∀ a ∈ l, Within P (f a) := by
  simp only [Within, mem_flatMap]
  exact ⟨fun h a ha name hname => h name ⟨a, ha, hname⟩, fun h name ⟨a, ha, hname⟩ => h a ha name hname⟩

lemma within_hint : Within P (hint s d).phrase.reliedNames := by
  have helement : Within P (elementHint s d.base).phrase.reliedNames := by
    cases d.base with
    | builtin b => cases b <;> simp [elementHint, scalarHint, Hint.phrase, globalReserved]
    | named name =>
      simp only [elementHint, classHint]
      split <;> simp [Hint.phrase, globalReserved]
  fun_cases hint s d <;> simp +zetaDelta [Hint.phrase, helement, globalReserved]

lemma within_packStatement (hvalue : Within P value.reliedNames) :
    Within P (packStatement s d value).reliedNames := by
  have hitem : ∀ base, Within P (elementPacker s base).reliedNames := fun base => by
    fun_cases elementPacker s base <;> simp [packer, globalReserved]
  have hone : ∀ base, Within P (elementPack s value base).reliedNames := fun base => by
    fun_cases elementPack s value base <;> simp [packer, hvalue, globalReserved]
  fun_cases packStatement s d value <;>
    simp +zetaDelta [packer, bound, hvalue, hitem, hone, globalReserved]

lemma within_unpackExpression : Within P (unpackExpression s d).reliedNames := by
  have hitem : ∀ base, Within P (elementUnpacker s base).reliedNames := fun base => by
    fun_cases elementUnpacker s base <;> simp [unpacker, globalReserved]
  have hone : ∀ base, Within P (elementUnpack s base).reliedNames := fun base => by
    fun_cases elementUnpack s base <;> simp [unpacker, globalReserved]
  fun_cases unpackExpression s d <;> simp +zetaDelta [unpacker, bound, hitem, hone, globalReserved]

/-- The encoded size is a sum over the items, each of a size of its own. -/
def SumsItems (s : Schema) (d : Shape) : Prop :=
  (d.arity = .fixed ∨ d.arity = .varying) ∧ d.base.isBytes = false ∧ s.sizeOf d = .varying ∧
    s.sizeOf (.scalar d.base) = .varying

lemma within_sizeTerm (hvalue : Within P value.reliedNames) (hitems : SumsItems s d → P "x") :
    ∀ e, (sizeTerm s d value).2 = some e → Within P e.reliedNames := by
  have hrows : (d.arity = .fixed ∨ d.arity = .varying) → d.base.isBytes = false →
      s.sizeOf d = .varying → Within P (itemSizes value (s.sizeOf (.scalar d.base)).bytes?).reliedNames := by
    intro harity hbytes hsize
    cases helement : s.sizeOf (.scalar d.base) with
    | fixed n => simp [Size.bytes?, itemSizes, hvalue, globalReserved]
    | varying =>
      have hx := hitems ⟨harity, hbytes, hsize, helement⟩
      simp [Size.bytes?, itemSizes, ownSize, hvalue, hx, globalReserved]
  intro e he
  unfold sizeTerm at he
  split at he
  · cases he
  · rename_i hsize
    dsimp only at he
    split at he
    · cases he
      simp [hvalue, globalReserved]
    · cases he
      simp [hvalue, globalReserved]
    · rename_i hopaque hstring
      have hbytes : d.base.isBytes = false := by
        cases hbase : d.base with
        | builtin b => cases b <;> simp_all [Base.isBytes, Builtin.isBytes]
        | named name => rfl
      split at he <;> rename_i harity <;> cases he
      · cases (s.sizeOf (.scalar d.base)).bytes? <;> simp [ownSize, hvalue]
      · exact hrows (.inl harity) hbytes hsize
      · exact hrows (.inr harity) hbytes hsize
      · simp [ownSize, hvalue]

lemma within_foldSizes (h : ∀ term ∈ terms, ∀ e, term.2 = some e → Within P e.reliedNames) :
    Within P (foldSizes terms).reliedNames := by
  have hall : ∀ e ∈ terms.filterMap (·.2), Within P e.reliedNames := by
    intro e he
    obtain ⟨term, hterm, hsome⟩ := mem_filterMap.1 he
    exact h term hterm e hsome
  unfold foldSizes
  dsimp only
  split
  · simp
  · split
    · simpa using hall
    · simpa using hall

lemma mem_foldSizes (h : SumsItems s d) (hterm : sizeTerm s d value ∈ terms) :
    "x" ∈ (foldSizes terms).reliedNames := by
  obtain ⟨harity, hbytes, hsize, helement⟩ := h
  have hrow : (sizeTerm s d value).2 = some (itemSizes value none) := by
    unfold sizeTerm
    rw [hsize]
    dsimp only
    rw [helement]
    split
    · simp_all [Base.isBytes, Builtin.isBytes]
    · simp_all [Base.isBytes, Builtin.isBytes]
    · rcases harity with harity | harity <;> rw [harity] <;> rfl
  have hmem : itemSizes value none ∈ terms.filterMap (·.2) := mem_filterMap.2 ⟨_, hterm, hrow⟩
  have hx : "x" ∈ (itemSizes value none).reliedNames := by simp [itemSizes, ownSize]
  unfold foldSizes
  dsimp only
  rw [if_neg (by simpa using ne_nil_of_mem hmem)]
  split <;> simp only [reliedNames_join, mem_flatMap]
  · exact ⟨_, hmem, hx⟩
  · exact ⟨_, .tail _ hmem, hx⟩

lemma within_packHeader : Within P packHeader.reliedNames := by
  simp [packHeader, typed, support, globalReserved]

lemma within_unpackMethod {name : String} {body : Lines} (hclass : P "classmethod")
    (hbody : Within P body.reliedNames) : Within P (unpackMethod name body).reliedNames := by
  simp [unpackMethod, typed, support, hclass, hbody, globalReserved]

lemma within_sizeMethod (h : ∀ term ∈ terms, ∀ e, term.2 = some e → Within P e.reliedNames) :
    Within P (sizeMethod t terms).reliedNames := by
  unfold sizeMethod
  split
  · simp
  · simp [sizeHeader, returns, within_foldSizes h, globalReserved]

lemma reliedNames_classAttributes : (classAttributes c t).reliedNames = [] := by
  unfold classAttributes
  cases t.size <;> cases c.strictPadding <;> rfl

/-- The methods of a list, on top of those of other structs. -/
def listNames : List String := ["reversed", "object", "NotImplemented", "other"]

namespace Chain

lemma reliedNames_next (l : Chain) (node : String) : (next l node).reliedNames = [node] := by
  have hwrappers : ∀ ws : List String,
      Phrase.reliedNames (ws.flatMap fun _ => plain ".value") = [] := by
    intro ws
    induction ws with
    | nil => rfl
    | cons w ws ih => simp [ih]
  simp [next, hwrappers]

lemma reliedNames_wrap (l : Chain) (p : Phrase) : (wrap l p).reliedNames = p.reliedNames := by
  unfold wrap
  induction l.wrappers with
  | nil => rfl
  | cons w ws ih => simp [ih]

lemma within_nodeSizes (hitems : ∀ f ∈ l.before ++ l.behind, SumsItems s f.2.toShape → P "x") :
    Within P (foldSizes (((l.before ++ l.behind).map fun (name, f) =>
      sizeTerm s f.toShape (attr (rely "_node") name)) ++ [(4, none)])).reliedNames := by
  refine within_foldSizes fun term hterm => ?_
  rcases mem_append.1 hterm with hterm | hterm
  · obtain ⟨f, hf, rfl⟩ := mem_map.1 hterm
    exact within_sizeTerm (by simp [globalReserved]) (hitems f hf)
  · cases mem_singleton.1 hterm
    rintro _ ⟨⟩

lemma within_methods {name : String} (hclass : P "classmethod")
    (hlist : ∀ word ∈ listNames, P word)
    (hitems : ∀ f ∈ l.before ++ l.behind, SumsItems s f.2.toShape → P "x") :
    Within P (methods s l name).reliedNames := by
  have hpack : ∀ fields : List (String × Decl), Within P (packFields s fields).reliedNames := by
    intro fields
    simp only [packFields, reliedNames_flatMap, within_flatMap]
    intro f _
    simpa using within_packStatement (by simp [globalReserved])
  obtain ⟨hreversed, hobject, hnot, hother⟩ : P "reversed" ∧ P "object" ∧ P "NotImplemented" ∧
      P "other" := by simpa [listNames] using hlist
  have hloop : ∀ {body : Lines}, Within P body.reliedNames → Within P (loop body).reliedNames := by
    intro body hbody
    simp [loop, hbody, globalReserved]
  have hpacks : Within P (packLines s l).reliedNames := by
    unfold packLines
    dsimp only
    split <;> simp [within_packHeader, hloop, hpack, reliedNames_next, emptyList, append, backwards,
      packer, hreversed, globalReserved]
  have hunpacks : Within P (unpackLines s l name).reliedNames := by
    refine within_unpackMethod hclass ?_
    simp [emptyList, append, backwards, returns, reliedNames_wrap, unpacker, hreversed,
      within_unpackExpression, flatMap_map, globalReserved]
  have hsizes : Within P (sizeLines s l).reliedNames := by
    have hterms := within_nodeSizes hitems
    unfold sizeLines
    dsimp only
    generalize foldSizes _ = total at hterms ⊢
    simp [sizeHeader, hloop, returns, reliedNames_next, hterms, globalReserved]
  have hequal : Within P (equalLines l).reliedNames := by
    unfold equalLines
    dsimp only
    split <;> simp [typed, returns, commas, reliedNames_next, hobject, hnot, hother, flatMap_map,
      globalReserved]
  have hshow : Within P (showLines l).reliedNames := by
    have htail : Within P (Phrase.reliedNames (l.behind.flatMap fun f => plain ", " ++ hole f.1)) := by
      rw [Phrase.reliedNames, filterMap_flatMap]
      refine within_flatMap.2 fun f _ => ?_
      show Within P (plain ", " ++ hole f.1).reliedNames
      simp [hole, globalReserved]
    unfold showLines
    dsimp only
    generalize List.flatMap _ l.behind = tail at htail ⊢
    simp [hloop, append, returns, commas, hole, reliedNames_next, htail, hreversed, flatMap_map,
      globalReserved]
  simp [methods, hpacks, hunpacks, hsizes, hequal, hshow]

end Chain

lemma within_plainSizes
    (hitems : ∀ f ∈ fields, SumsItems s f.2.toShape → P "x") :
    Within P (sizeMethod t (fields.map fun (field, f) =>
      sizeTerm s f.toShape (attr (rely "self") field))).reliedNames := by
  refine within_sizeMethod fun term hterm => ?_
  obtain ⟨f, hf, rfl⟩ := mem_map.1 hterm
  exact within_sizeTerm (by simp [globalReserved]) (hitems f hf)

lemma within_plainMethods {name : String} (hclass : P "classmethod")
    (hitems : ∀ f ∈ fields, SumsItems s f.2.toShape → P "x") :
    Within P (plainMethods s t name fields).reliedNames := by
  have hunpack : Within P (unpackMethod name (line (returns (call (rely "cls")
      (fields.map fun f => unpackExpression s f.2.toShape))))).reliedNames := by
    refine within_unpackMethod hclass ?_
    simp [returns, within_unpackExpression, flatMap_map, globalReserved]
  have hsize := within_plainSizes (t := t) hitems
  unfold plainMethods
  dsimp only
  split
  · simpa [within_packHeader] using ⟨hunpack, hsize⟩
  · simpa [within_packHeader, reliedNames_flatMap, within_packStatement, globalReserved] using ⟨hunpack, hsize⟩

lemma within_lines (hdecorators : ∀ p ∈ k.decorators, Within P p.reliedNames)
    (hparents : ∀ p ∈ k.parents, Within P p.phrase.reliedNames)
    (hfields : ∀ f ∈ k.fields, Within P f.phrase.reliedNames) (hbody : Within P k.body.reliedNames) :
    Within P k.lines.reliedNames := by
  unfold ClassText.lines
  dsimp only
  split
  · simpa [reliedNames_flatMap, flatMap_map, hbody] using ⟨hdecorators, hparents⟩
  · simpa [reliedNames_flatMap, flatMap_map, hbody] using ⟨hdecorators, hparents, hfields⟩

lemma mem_lines {name : String} (h : name ∈ k.body.reliedNames) : name ∈ k.lines.reliedNames := by
  simp [ClassText.lines, h]

lemma within_bases {base : String} : ∀ p ∈ bases base t, Within P p.phrase.reliedNames := by
  unfold bases
  split <;> simp [generic, Hint.phrase, support, globalReserved]

lemma reliedNames_labelLiteral (p : UnionPlan) (v : Int) : (labelLiteral p v).reliedNames = [] := by
  unfold labelLiteral
  split
  · split <;> simp
  · simp

lemma within_construct {name : String} :
    Within P (construct s name a).reliedNames := by
  unfold construct
  dsimp only
  split <;> simp [within_unpackExpression, globalReserved]

end

end Emit

def Definition.contents : Definition → List Decl
  | .enum _ => []
  | .struct d => d.fields
  | .typedef d => [d.decl]
  | .union u => u.declarations

/-- The code for a type relies on a name that is not reserved: every class but an enum has a class
method, the classes of arms list their labels, a list is walked backwards and compares itself, and
the sizes of items are summed where they differ. -/
def Schema.Relies (s : Schema) (t : TypeInfo) (name : String) : Prop :=
  (name = "classmethod" ∧ t.kind ≠ .enum) ∨
  (name = "frozenset" ∧ ∃ u, t.definition = .union u ∧ u.declarations ≠ []) ∨
  (name ∈ Emit.listNames ∧ ∃ d, t.definition = .struct d ∧ (s.chain? d).isSome) ∨
  (name = "x" ∧ ∃ m ∈ t.definition.contents, Emit.SumsItems s m.toShape)

/-- The names that generated code may rely on although they are not reserved. -/
def unreserved : List String := ["classmethod", "frozenset", "x"] ++ Emit.listNames

lemma Schema.Relies.unreserved {s : Schema} {t : TypeInfo} {name : String} (h : s.Relies t name) :
    name ∈ unreserved := by
  rcases h with ⟨rfl, -⟩ | ⟨rfl, -⟩ | ⟨h, -⟩ | ⟨rfl, -⟩
  · decide
  · decide
  · exact mem_append_right _ h
  · decide

namespace Emit

open Phrase Lines

section

variable {s : Schema} {c : Config} {t : TypeInfo} {classes : List ClassText} {P : String → Prop}

lemma chain_fields {d : StructType} (hl : s.chain? d = some l) :
    ∀ f ∈ l.before ++ l.behind, f.2 ∈ d.fields := by
  obtain ⟨link, -, rfl⟩ := Option.map_eq_some_iff.1 hl
  intro f hf
  have hplan : f ∈ d.plan := by
    rcases mem_append.1 hf with hf | hf
    · exact mem_of_mem_take hf
    · exact mem_of_mem_drop hf
  obtain ⟨m, hm, rfl⟩ := mem_map.1 hplan
  exact hm

lemma within_enumClass (e : EnumType) : Within P (enumClass e).lines.reliedNames := by
  refine within_lines (forall_mem_nil _)
    (by simp [enumClass, Hint.phrase, support, globalReserved]) (forall_mem_nil _) ?_
  unfold enumClass
  dsimp only
  split <;> simp

lemma within_structClass {d : StructType} (hclass : P "classmethod")
    (hlist : (s.chain? d).isSome → ∀ word ∈ listNames, P word)
    (hitems : ∀ m ∈ d.fields, SumsItems s m.toShape → P "x") :
    Within P (structClass s c t d).lines.reliedNames := by
  refine within_lines (by simp [structClass, dataclass, globalReserved]) within_bases ?_ ?_
  · intro f hf
    obtain ⟨m, -, rfl⟩ := mem_map.1 hf
    simp [FieldText.phrase, within_hint]
  · simp only [structClass, Lines.reliedNames_append, reliedNames_classAttributes, nil_append]
    split
    · rename_i l hl
      exact Chain.within_methods hclass (hlist (by rw [hl]; rfl)) fun f hf =>
        hitems f.2 (chain_fields hl f hf)
    · refine within_plainMethods hclass fun f hf => ?_
      obtain ⟨m, hm, rfl⟩ := mem_map.1 hf
      exact hitems m hm

lemma within_typedefClass {d : Shape} (hclass : P "classmethod") (hitems : SumsItems s d → P "x") :
    Within P (typedefClass s c t d).lines.reliedNames := by
  have hterm : ∀ term ∈ [sizeTerm s d (attr (rely "self") "value")], ∀ e,
      term.2 = some e → Within P e.reliedNames := by
    intro term hterm
    cases mem_singleton.1 hterm
    exact within_sizeTerm (by simp [globalReserved]) hitems
  refine within_lines (by simp [typedefClass, dataclass, globalReserved]) within_bases ?_ ?_
  · simp [typedefClass, FieldText.phrase, within_hint]
  · simp [typedefClass, reliedNames_classAttributes, within_packHeader, within_packStatement,
      within_unpackMethod hclass, within_unpackExpression, within_sizeMethod hterm, returns,
      globalReserved]

lemma within_unionClass {p : UnionPlan} (hclass : P "classmethod") :
    Within P (unionClass s c t p).lines.reliedNames := by
  have hdispatch : Within P (dispatch s p (globalName t.name)).reliedNames := by
    simp only [dispatch, reliedNames_flatMap, within_flatMap]
    intro a _
    simp [returns, within_construct, reliedNames_labelLiteral, flatMap_map, globalReserved]
  have hotherwise : Within P (otherwise s p t (globalName t.name)).reliedNames := by
    unfold otherwise
    split <;> simp [returns, within_construct, support, globalReserved]
  refine within_lines (forall_mem_nil _) within_bases (forall_mem_nil _) ?_
  simp [unionClass, reliedNames_classAttributes, within_unpackMethod hclass, hdispatch, hotherwise,
    within_unpackExpression, globalReserved]

lemma within_armClass {p : UnionPlan} (hset : P "frozenset")
    (hitems : SumsItems s a.decl.toShape → P "x") :
    Within P (armClass s p t a).lines.reliedNames := by
  have hfield : ∀ name, Within P (attr (rely "self") name).reliedNames := by simp [globalReserved]
  have hterms : ∀ term ∈ ((p.discSize, none) : SizeTerm) ::
      a.payload?.toList.map (fun name => sizeTerm s a.decl.toShape (attr (rely "self") name)),
      ∀ e, term.2 = some e → Within P e.reliedNames := by
    intro term hterm
    rcases mem_cons.1 hterm with rfl | hterm
    · rintro _ ⟨⟩
    · obtain ⟨name, -, rfl⟩ := mem_map.1 hterm
      exact within_sizeTerm (hfield name) hitems
  refine within_lines ?_ ?_ ?_ ?_
  · simp [armClass, dataclass, globalReserved]
  · simp only [armClass, classHint, mem_singleton, forall_eq]
    split <;> simp [Hint.phrase, globalReserved]
  · simp only [armClass, mem_append, mem_map, mem_singleton]
    rintro f (⟨name, -, rfl⟩ | rfl)
    · simp [FieldText.phrase, within_hint]
    · split <;> simp [FieldText.phrase, within_hint, reliedNames_labelLiteral]
  · simp only [armClass]
    generalize ((p.discSize, none) : SizeTerm) :: _ = terms at hterms ⊢
    have hpayload : Within P (Lines.reliedNames (a.payload?.toList.flatMap fun name =>
        line (packStatement s a.decl.toShape (attr (rely "self") name)))) := by
      simp only [reliedNames_flatMap, within_flatMap]
      intro name _
      simpa using within_packStatement (hfield name)
    have hdisc := within_packStatement (s := s) (d := p.disc) (hfield p.discField)
    split_ifs <;> simpa [within_packHeader, within_sizeMethod hterms, hset, hdisc, globalReserved]
      using hpayload

lemma within_classes (hclasses : classes? s c t = some classes) :
    ∀ k ∈ classes, Within (s.Relies t) k.lines.reliedNames := by
  have hclass (h : t.definition.kind ≠ .enum) : s.Relies t "classmethod" := .inl ⟨rfl, h⟩
  have hsums {m : Decl} (hm : m ∈ t.definition.contents) (h : SumsItems s m.toShape) :
      s.Relies t "x" := .inr (.inr (.inr ⟨rfl, m, hm, h⟩))
  unfold classes? at hclasses
  split at hclasses <;> rename_i d hd <;> simp only [hd, Definition.kind] at hclass hsums
  · cases hclasses
    exact forall_mem_singleton.2 (within_enumClass d)
  · cases hclasses
    have hlist (h : (s.chain? d).isSome) : ∀ word ∈ listNames, s.Relies t word := fun word hword =>
      .inr (.inr (.inl ⟨hword, d, hd, h⟩))
    exact forall_mem_singleton.2 (within_structClass (hclass (by decide)) hlist fun m hm => hsums hm)
  · cases hclasses
    exact forall_mem_singleton.2 (within_typedefClass (hclass (by decide)) (hsums (.head _)))
  · obtain ⟨p, hp, rfl⟩ := Option.map_eq_some_iff.1 hclasses
    refine forall_mem_cons.2 ⟨within_unionClass (hclass (by decide)), forall_mem_map.2 fun a ha => ?_⟩
    have hdecl := Schema.decl_mem_of_arm hp ha
    exact within_armClass (.inr (.inl ⟨rfl, d, hd, ne_nil_of_mem hdecl⟩)) (hsums hdecl)

/-- No item of a list is a link to the next node. -/
lemma chain_sums {d : StructType} (hl : s.chain? d = some l) {m : Decl} (hm : m ∈ d.fields)
    (hsums : SumsItems s m.toShape) : ∃ f ∈ l.before ++ l.behind, f.2 = m := by
  obtain ⟨link, hlink, rfl⟩ := Option.map_eq_some_iff.1 hl
  obtain ⟨i, hi⟩ := mem_iff_getElem?.1 hm
  obtain ⟨f, hfm, hplan⟩ : ∃ f, f.2 = m ∧ d.plan[i]? = some f :=
    ⟨(memberName (m.name.getD "None"), m), rfl, by simp [StructType.plan, hi]⟩
  rcases Nat.lt_trichotomy i link.position with hlt | rfl | hgt
  · refine ⟨f, mem_append_left _ (mem_of_getElem? (i := i) ?_), hfm⟩
    exact (getElem?_take_of_lt hlt).trans hplan
  · -- a link is a single optional, perhaps within typedefs
    exfalso
    obtain ⟨⟨f, j⟩, hmem, hself⟩ := mem_filterMap.1 (mem_of_getLast? hlink)
    obtain ⟨wrappers, hwrappers, rfl⟩ := Option.map_eq_some_iff.1 hself
    have hf : d.fields[j]? = some f := mem_zipIdx_iff_getElem?.1 hmem
    obtain rfl : f = m := Option.some.inj (hf.symm.trans hi)
    have harity := hsums.1
    unfold Schema.selfLink? Schema.unwrap at hwrappers
    rcases harity with harity | harity <;> simp [harity] at hwrappers
  · refine ⟨f, mem_append_right _
      (mem_of_getElem? (i := i - (link.position + 1)) ?_), hfm⟩
    refine getElem?_drop.trans ?_
    rw [show link.position + 1 + (i - (link.position + 1)) = i by omega]
    exact hplan

lemma mem_sizeMethod {d : Shape} {value : Phrase} (hsize : t.size.isFixed = false)
    (h : SumsItems s d) (hterm : sizeTerm s d value ∈ terms) :
    "x" ∈ (sizeMethod t terms).reliedNames := by
  simp [sizeMethod, hsize, returns, mem_foldSizes h hterm]

lemma mem_nodeSizes {f : String × Decl} (hf : f ∈ l.before ++ l.behind)
    (hsums : SumsItems s f.2.toShape) :
    "x" ∈ (foldSizes (((l.before ++ l.behind).map fun (name, f) =>
      sizeTerm s f.toShape (attr (rely "_node") name)) ++ [(4, none)])).reliedNames :=
  mem_foldSizes hsums (mem_append_left _ (mem_map.2 ⟨f, hf, rfl⟩))

lemma mem_structClass {d : StructType} (hsized : s.Sized) (hfind : s.find? t.name = some t)
    (hd : t.definition = .struct d) {name : String} (h : s.Relies t name) :
    name ∈ (structClass s c t d).lines.reliedNames := by
  rw [Schema.Relies, hd] at h
  refine mem_lines ?_
  simp only [structClass, Lines.reliedNames_append, mem_append]
  right
  rcases h with ⟨rfl, -⟩ | ⟨-, -, ⟨⟩, -⟩ | ⟨hname, _, ⟨⟩, hchain⟩ | ⟨rfl, m, hm, hsums⟩
  · split
    · simp [Chain.methods, Chain.unpackLines, unpackMethod]
    · simp [plainMethods, unpackMethod]
  · obtain ⟨l, hl⟩ := Option.isSome_iff_exists.1 hchain
    rw [hl]
    simp only [listNames, mem_cons, not_mem_nil, or_false] at hname
    rcases hname with rfl | rfl | rfl | rfl <;>
      simp [Chain.methods, Chain.unpackLines, unpackMethod, Chain.backwards, Chain.equalLines, typed,
        returns]
  · change m ∈ d.fields at hm
    split
    · rename_i l hl
      obtain ⟨f, hf, rfl⟩ := chain_sums hl hm hsums
      have hfold := mem_nodeSizes hf hsums
      have hlines : "x" ∈ (Chain.sizeLines s l).reliedNames := by
        unfold Chain.sizeLines
        dsimp only
        generalize foldSizes _ = total at hfold ⊢
        simp [Chain.loop, hfold]
      simp [Chain.methods, hlines]
    · have hsize : t.size.isFixed = false := by
        rw [hsized.struct _ t d hfind hd]
        cases hsum : Size.sum (d.fields.map fun f => s.sizeOf f.toShape) with
        | varying => rfl
        | fixed n =>
          obtain ⟨ns, hns, -⟩ := Size.sum_eq_fixed_iff.1 hsum
          have hvarying := mem_map_of_mem (f := fun f : Decl => s.sizeOf f.toShape) hm
          simp [hns, hsums.2.2.1] at hvarying
      simp only [plainMethods, Lines.reliedNames_append, mem_append]
      exact .inr (mem_sizeMethod hsize hsums
        (mem_map.2 ⟨(_, m), mem_map.2 ⟨m, hm, rfl⟩, rfl⟩))

lemma mem_typedefClass {d : TypedefType} (hsized : s.Sized) (hfind : s.find? t.name = some t)
    (hd : t.definition = .typedef d) {name : String} (h : s.Relies t name) :
    name ∈ (typedefClass s c t d.decl.toShape).lines.reliedNames := by
  rw [Schema.Relies, hd] at h
  refine mem_lines ?_
  rcases h with ⟨rfl, -⟩ | ⟨-, -, ⟨⟩, -⟩ | ⟨-, -, ⟨⟩, -⟩ | ⟨rfl, m, hm, hsums⟩
  · simp [typedefClass, unpackMethod]
  · cases mem_singleton.1 hm
    have hsize : t.size.isFixed = false := by
      rw [hsized.typedef _ t d hfind hd, hsums.2.2.1]
      rfl
    simp [typedefClass, mem_sizeMethod hsize hsums (.head _)]

lemma mem_armClass {p : UnionPlan} (hsize : t.size.isFixed = false)
    (hsums : SumsItems s a.decl.toShape) : "x" ∈ (armClass s p t a).lines.reliedNames := by
  have hvoid : a.decl.isVoid = false := by
    by_contra hvoid
    have hbase : a.decl.base = .builtin .void := by simpa [Shape.isVoid] using hvoid
    have hvarying := hsums.2.2.2
    rw [hbase] at hvarying
    cases hvarying
  refine mem_lines ?_
  simp only [armClass, Lines.reliedNames_append, mem_append]
  refine .inr (mem_sizeMethod hsize hsums (.tail _ (mem_map.2
    ⟨memberName (a.decl.name.getD "None"), ?_, rfl⟩)))
  simp [ArmPlan.payload?, hvoid]

lemma mem_of_relies (hsound : s.Sound) (hsized : s.Sized) (ht : t ∈ s.types)
    (hclasses : classes? s c t = some classes) {name : String} (h : s.Relies t name) :
    ∃ k ∈ classes, name ∈ k.lines.reliedNames := by
  have hfind := hsound.find?_name ht
  unfold classes? at hclasses
  split at hclasses
  · rename_i e he
    simp [Schema.Relies, TypeInfo.kind, he, Definition.kind, Definition.contents] at h
  · rename_i d hd
    cases hclasses
    exact ⟨_, .head _, mem_structClass hsized hfind hd h⟩
  · rename_i d hd
    cases hclasses
    exact ⟨_, .head _, mem_typedefClass hsized hfind hd h⟩
  · rename_i u hu
    obtain ⟨p, hp, rfl⟩ := Option.map_eq_some_iff.1 hclasses
    rw [Schema.Relies, hu] at h
    rcases h with ⟨rfl, -⟩ | ⟨rfl, _, ⟨⟩, hdeclarations⟩ | ⟨-, -, ⟨⟩, -⟩ | ⟨rfl, m, hm, hsums⟩
    · exact ⟨_, mem_cons_self, mem_lines (by simp [unionClass, unpackMethod])⟩
    · rw [← Schema.unionPlan?_declarations hp] at hdeclarations
      obtain ⟨a, ha⟩ := exists_mem_of_ne_nil _ (by simpa using hdeclarations : p.arms ≠ [])
      exact ⟨_, .tail _ (mem_map_of_mem ha), mem_lines (by simp [armClass])⟩
    · rw [Definition.contents, ← Schema.unionPlan?_declarations hp] at hm
      obtain ⟨a, ha, rfl⟩ := mem_map.1 hm
      have hsize : t.size.isFixed = false := by
        cases hfixed : t.size with
        | varying => rfl
        | fixed n =>
          have hplan : s.plan? t.name = some p := (hsound.plan?_eq ht hu).trans hp
          obtain ⟨k, hk, -⟩ := hsized.union _ t p n hfind hplan hfixed a ha
          rw [hsums.2.2.1] at hk
          cases hk
      exact ⟨_, .tail _ (mem_map_of_mem ha), mem_armClass hsize hsums⟩

lemma reliedNames_closing (t : TypeInfo) (arms : List ClassText) :
    (closingLines t arms).reliedNames = [] := by
  unfold closingLines
  split
  · unfold aliasLines
    dsimp only
    split <;> simp [reliedNames_flatMap]
  · simp [commas, flatMap_map]
  · rfl

lemma within_module (h : moduleLines? s c sourceName = some lines) :
    Within (fun name => ∃ t ∈ s.types, s.Relies t name) lines.reliedNames := by
  obtain ⟨body, hbody, rfl⟩ := Option.map_eq_some_iff.1 h
  obtain ⟨enums, henums, hbody⟩ := Option.bind_eq_some_iff.1 hbody
  obtain ⟨types, htypes, hbody⟩ := Option.bind_eq_some_iff.1 hbody
  cases hbody
  have hparts : ∀ {p : TypeInfo → Bool} {texts : List Lines},
      (s.types.filter p).mapM (typeLines? s c) = some texts →
      Within (fun name => ∃ t ∈ s.types, s.Relies t name) (Lines.reliedNames texts.flatten) := by
    intro p texts htexts
    have hflat : Lines.reliedNames texts.flatten = texts.flatMap Lines.reliedNames := by
      simpa [flatMap_id'] using reliedNames_flatMap texts id
    rw [hflat, within_flatMap]
    intro text htext
    obtain ⟨t, ht, htype⟩ := exists_of_forall₂_right (mapM_eq_some_iff.1 htexts) htext
    obtain ⟨classes, hclasses, rfl⟩ := Option.map_eq_some_iff.1 htype
    have hmem := (mem_filter.1 ht).1
    simp only [Lines.reliedNames_append, reliedNames_closing, append_nil, reliedNames_flatMap,
      within_flatMap]
    intro k hk name hname
    exact (within_classes hclasses k hk name hname).imp_right fun hrelies => ⟨t, hmem, hrelies⟩
  have hcomments : (headerComments c sourceName).reliedNames = [] := by
    unfold headerComments
    rw [Lines.reliedNames_append, reliedNames_flatMap]
    split <;> try split
    all_goals simp
  have hconstants : (constantLines s).reliedNames = [] := by
    unfold constantLines
    split <;> simp [reliedNames_flatMap]
  have hexports : (if c.exportAll then exportLines s else []).reliedNames = [] := by
    split <;> simp [exportLines, reliedNames_flatMap]
  have himports : Within (fun name => ∃ t ∈ s.types, s.Relies t name) (imports c).reliedNames := by
    simp [imports, globalReserved]
  simpa [hcomments, hconstants, hexports, hparts htypes] using ⟨himports, hparts henums⟩

lemma mem_module (h : moduleLines? s c sourceName = some lines) (ht : t ∈ s.types)
    (hclasses : classes? s c t = some classes) (hk : k ∈ classes) {name : String}
    (hname : name ∈ k.lines.reliedNames) : name ∈ lines.reliedNames := by
  obtain ⟨front, back, rfl⟩ := classes_infix_moduleLines h ht hclasses
  have hfound : name ∈ Lines.reliedNames (classes.flatMap ClassText.lines) := by
    rw [reliedNames_flatMap]
    exact mem_flatMap.2 ⟨k, hk, hname⟩
  simp [hfound]

end

end Emit

/-- Neither a reserved name nor one of the others is the name of the class of an arm. -/
lemma armNames_apart (s : Schema) (t : TypeInfo) {name : String} (h : name ∈ Emit.armNames s t) :
    name ∉ globalReserved ++ unreserved := by
  have hshape : ∀ word ∈ globalReserved ++ unreserved, word.toList.head? = some '_' →
      '_' ∉ word.toList.tail := by decide
  intro hmem
  unfold Emit.armNames at h
  split at h
  · obtain ⟨p, -, h⟩ := mem_flatMap.1 h
    obtain ⟨a, -, rfl⟩ := mem_map.1 h
    refine hshape _ hmem ?_ ?_ <;> simp [ClassKey.bodyName]
  · cases h

/-- What a module captures. A name that the module of an accepted text gives to a definition is one
that its code relies on exactly when the specification has the name, and it is one of seven that are
not reserved: `classmethod` beside a type other than an enum, `frozenset` beside a union, `reversed`,
`object`, `NotImplemented` and `other` beside a struct that links to itself, and `x` beside a row of
items of different sizes. -/
theorem captured_names_exact (c : Config) {filename source : String} {accepted : Accepted}
    (h : (compile filename source).outcome = .ok accepted) :
    ∃ lines, accepted.moduleLines c filename = .ok lines ∧
      ∀ name, name ∈ lines.boundNames ∧ name ∈ lines.reliedNames ↔
        name ∈ accepted.schema.names ∧ ∃ t ∈ accepted.schema.types, accepted.schema.Relies t name := by
  obtain ⟨spec, hs⟩ := exists_schema_of_compile h
  obtain ⟨hsound, -, hsized, -⟩ := accepted_schema hs
  have hcomplete := complete_of_compile h
  obtain ⟨lines, hlines⟩ := hcomplete.exists_moduleLines c (Emit.sourceName? filename)
  have hperm := Emit.boundNames_module hlines
  have hwithin := Emit.within_module hlines
  refine ⟨lines, by rw [Accepted.moduleLines, hlines], fun name => ⟨?_, ?_⟩⟩
  · rintro ⟨hbound, hrelied⟩
    have hfound := hwithin name hrelied
    have hlisted : name ∈ globalReserved ++ unreserved := by
      rcases hfound with hreserved | ⟨_, _, hrelies⟩
      · exact mem_append_left _ hreserved
      · exact mem_append_right _ hrelies.unreserved
    rcases mem_append.1 (hperm.mem_iff.1 hbound) with hglobal | harm
    · obtain ⟨written, hwritten, rfl⟩ := mem_map.1 hglobal
      have hescaped : ∀ word ∈ keywords ++ globalReserved, word ++ "_" ∉ globalReserved ++ unreserved := by
        decide
      have hplain : written ∉ keywords ++ globalReserved := by
        intro hreserved
        rw [globalName, safe_eq, if_pos hreserved] at hlisted
        exact hescaped written hreserved hlisted
      rw [globalName, safe_eq, if_neg hplain] at hfound ⊢
      exact ⟨hwritten, hfound.resolve_left fun hreserved => hplain (mem_append_right _ hreserved)⟩
    · obtain ⟨t, -, harm⟩ := mem_flatMap.1 harm
      exact absurd hlisted (armNames_apart _ t harm)
  · rintro ⟨hname, t, ht, hrelies⟩
    have hplain : ∀ word ∈ unreserved, word ∉ keywords ++ globalReserved := by decide
    have hglobal : globalName name = name := by
      rw [globalName, safe_eq, if_neg (hplain name hrelies.unreserved)]
    obtain ⟨classes, hclasses⟩ := hcomplete.exists_classes c ht
    obtain ⟨k, hk, hmem⟩ := Emit.mem_of_relies hsound hsized ht hclasses hrelies
    refine ⟨hperm.mem_iff.2 (mem_append_left _ ?_), Emit.mem_module hlines ht hclasses hk hmem⟩
    exact mem_map.2 ⟨name, hname, hglobal⟩

def Schema.isList (s : Schema) (t : TypeInfo) : Bool :=
  match t.definition with
  | .struct d => (s.chain? d).isSome
  | _ => false

/-- A type with the name of the builtin that walks a list backwards, beside a list. -/
def reversedText : String :=
  "struct reversed \x7b int a; \x7d; struct n \x7b int a; n *next; \x7d;"

theorem captured_names_exact_reversed : ∃ accepted lines,
    (compile "x" reversedText).outcome = .ok accepted ∧ accepted.moduleLines {} "x" = .ok lines ∧
      "reversed" ∈ lines.boundNames ∧ "reversed" ∈ lines.reliedNames ∧
      ∀ name ∈ lines.boundNames, name ∈ lines.reliedNames → name = "reversed" := by
  have hknown : (compile "x" reversedText).outcome.toOption.map (fun a => (a.schema.names,
      a.schema.types.map a.schema.isList)) = some (["reversed", "n"], [false, true]) := by
    decide +kernel
  obtain ⟨accepted, houtcome, hknown⟩ := exists_ok_of_toOption hknown
  obtain ⟨hnames, hchains⟩ := Prod.mk.inj hknown
  obtain ⟨lines, hlines, hexact⟩ := captured_names_exact {} houtcome
  have hrelies : ∃ t ∈ accepted.schema.types, accepted.schema.Relies t "reversed" := by
    have hlist : true ∈ accepted.schema.types.map accepted.schema.isList := by
      rw [hchains]
      decide
    obtain ⟨t, ht, hchain⟩ := mem_map.1 hlist
    refine ⟨t, ht, .inr (.inr (.inl ⟨by decide, ?_⟩))⟩
    unfold Schema.isList at hchain
    split at hchain
    · rename_i d hd
      exact ⟨d, hd, hchain⟩
    · cases hchain
  obtain ⟨hbound, hrelied⟩ := (hexact "reversed").2 ⟨by rw [hnames]; decide, hrelies⟩
  refine ⟨accepted, lines, houtcome, hlines, hbound, hrelied, fun name hbound hrelied => ?_⟩
  obtain ⟨hname, t, -, ht⟩ := (hexact name).1 ⟨hbound, hrelied⟩
  rw [hnames] at hname
  rcases mem_cons.1 hname with rfl | hname
  · rfl
  · cases mem_singleton.1 hname
    exact absurd ht.unreserved (by decide)

end Xdr
