import Xdr.Proofs.Codec.Comparison
import Xdr.Proofs.Codec.Decoding
import Xdr.Proofs.Codec.Encoding
import Xdr.Proofs.Codec.Measuring
import Xdr.Proofs.Module.Linking

/-!
# Types of a module

What a module does with the values of a type, enums included: a value that can be encoded has a
layout, which the encoding follows, and decoding by the type goes from the layout back to the value.
-/

namespace Xdr

open Naming Wire List

variable {s : Schema} {spec : Ast.Specification} {v : Value} {cells : Cells} {F D P : UInt64 → Prop}
  {storage : Storage} {strict : Bool}

def Schema.classNamed (s : Schema) (name : String) : Value :=
  match s.meant name with
  | .enum e => .cls (.enum e.name)
  | _ => .cls (.type name)

lemma Schema.type_cases {name : String} {t : TypeInfo} (ht : s.find? name = some t) :
    (∃ e, t.definition = .enum e ∧ s.formNamed name = .enum (.enum ⟨e.name, e.variants, []⟩) ∧
      s.classNamed name = .cls (.enum name)) ∨
    (∀ e, t.definition ≠ .enum e) ∧ s.formNamed name = .cls (.cls (.type name)) ∧
      s.classNamed name = .cls (.type name) := by
  by_cases h : ∃ e, t.definition = .enum e
  · obtain ⟨e, he⟩ := h
    have hname : t.name = e.name := by rw [TypeInfo.name, he]; rfl
    refine .inl ⟨e, he, formNamed_of_enum ht he, ?_⟩
    rw [classNamed, meant_of_enum ht he, ← (mem_of_find? ht).2, hname]
  · have hnot : ∀ e, t.definition ≠ .enum e := fun e he => h ⟨e, he⟩
    refine .inr ⟨hnot, formNamed_of_not_enum fun t' ht' => ?_, ?_⟩
    · cases ht.symm.trans ht'
      exact hnot
    · obtain ⟨d, _, _, _, _⟩ := t
      cases d with
      | enum e => exact absurd rfl (hnot e)
      | _ => simp only [classNamed, meant, ht]

lemma Globals.Holds.lookup_eq {g : Globals} (hs : s.Sound) {t : TypeInfo} (ht : t ∈ s.types)
    (h : g.Holds s t) : g.names.lookup (globalName t.name) = some (s.classNamed t.name) := by
  unfold Globals.Holds at h
  obtain ⟨e, he, -, hcls⟩ | ⟨hnot, -, hcls⟩ := Schema.type_cases (hs.find?_name ht)
  · have hname : t.name = e.name := by rw [TypeInfo.name, he]; rfl
    rw [he] at h
    rw [hcls, hname]
    exact h.name
  · rw [hcls]
    cases hd : t.definition with
    | enum e => exact absurd hd (hnot e)
    | struct d | typedef d =>
      rw [hd] at h
      exact h.bound
    | union u =>
      rw [hd] at h
      obtain ⟨p, -, h⟩ := h
      exact h.bound

/-- The specification is accepted, and the module of its schema can be loaded. -/
structure Generates (spec : Ast.Specification) (c : Config) (s : Schema) (m : Module) : Prop where
  schema : (analyze spec).schema = some s
  load : Module.load s c = .ok m

namespace Generates

variable {spec : Ast.Specification} {c : Config} {s : Schema} {m : Module} (h : Generates spec c s m)

include h

lemma sound : s.Sound := (accepted_schema h.schema).1

lemma closed : s.Closed := (accepted_schema h.schema).2.1

lemma sized : s.Sized := (accepted_schema h.schema).2.2.1

lemma ranked : ∃ rank, s.Ranked rank := (accepted_schema h.schema).2.2.2

lemma faithful (hnames : s.Unambiguous) :
    ∃ lib, Imports.support? c.runtimeModule = some lib ∧ Faithful s lib m := by
  obtain ⟨lib, htext, hm⟩ := Module.faithful_of_load h.sound h.closed hnames h.load
  refine ⟨lib, ?_, hm⟩
  unfold checkText at htext
  dsimp only at htext
  split_ifs at htext
  split at htext
  · rename_i hsupport
    cases htext
    exact hsupport
  · cases htext

end Generates

lemma Module.load_eq_getD {c : Config} (h : (Module.load s c).isOk = true) :
    Module.load s c = .ok ((Module.load s c).toOption.getD {}) := by
  cases hload : Module.load s c with
  | ok m => rfl
  | error f =>
    rw [hload] at h
    cases h

/-- Decodes by the class that the module has for a type of the specification. -/
def Module.decodeType (m : Module) (name : String) (strict : Bool) (data : List UInt8) :
    Except Fault (Value × List UInt8) := do
  m.decodeAs (← m.top (globalName name)) (some strict) data

lemma Generates.top_eq {c : Config} {m : Module} (h : Generates spec c s m) (hn : s.Unambiguous)
    {t : TypeInfo} (ht : t ∈ s.types) : m.top (globalName t.name) = .ok (s.classNamed t.name) := by
  have hs := h.sound
  obtain ⟨lib, -, h⟩ := bind_ok h.load
  obtain ⟨g, hload, h⟩ := bind_ok h
  cases h
  have hg := Globals.load_ok hs hn hload
  have hlookup := (hg.types t ht).lookup_eq hs ht
  have hshared := hn.globalName_shared ht
  have hfixed : Module.fixed.lookup (globalName t.name) = none := by
    refine lookup_of_notMem fun hmem => ?_
    simp only [Module.fixed, map_cons, map_nil, mem_cons, not_mem_nil,
      or_false] at hmem
    rcases hmem with heq | heq <;> exact ne_of_shared hshared (by simp) heq
  simp [Module.top, hfixed, hlookup]

lemma Generates.decodeType_eq {c : Config} {m : Module} (h : Generates spec c s m)
    (hn : s.Unambiguous) {t : TypeInfo} (ht : t ∈ s.types) (strict : Bool) (data : List UInt8) :
    m.decodeType t.name strict data = m.decodeAs (s.classNamed t.name) (some strict) data := by
  rw [Module.decodeType, h.top_eq hn ht]
  rfl

lemma Generates.attr_arm {c : Config} {m : Module} (h : Generates spec c s m) (hn : s.Unambiguous)
    {name : String} {p : UnionPlan} (hp : s.plan? name = some p) {a : ArmPlan} (ha : a ∈ p.arms) :
    m.attr (.cls (.type name)) a.attr = .ok (.cls (.arm name a.attr)) := by
  have hs := h.sound
  obtain ⟨lib, -, h⟩ := bind_ok h.load
  obtain ⟨g, hload, h⟩ := bind_ok h
  cases h
  have hg := Globals.load_ok hs hn hload
  exact (hg.hasUnion hs hn hp).1.attr_eq ha

def Module.checkKind (m : Module) (key : ClassKey) (v : Value) : Except Fault Unit :=
  match m.kind? key with
  | some .union | some .arm => m.checkArm key v
  | _ => pure ()

lemma Module.decodeAs_cls (m : Module) {key : ClassKey} (hkey : key.isEnum = false) (strict : Bool)
    (data : List UInt8) :
    m.decodeAs (.cls key) (some strict) data = do
      let found ← m.decodeInstance strict key data
      m.checkKind key found.1
      return found := by
  rw [Module.decodeAs, hkey, if_neg (by simp)]
  simp only [checkKind, Option.elim, bind, Except.bind]
  cases m.decodeInstance strict key data with
  | error f => rfl
  | ok found =>
    simp only
    cases m.kind? key with
    | none => rfl
    | some kind => cases kind <;> rfl

namespace Faithful

variable {s : Schema} {lib : Imports.Support} {m : Module} (hm : Faithful s lib m)
  {R : UInt64 → Nat → Prop} {name : String} {t : TypeInfo}

lemma wireSize_of_laid (hm : Faithful s .whole m) (ht : s.find? name = some t) (hsized : s.Sized)
    (h : s.Laid R name v cells) : m.wireSize v = .ok cells.length := by
  obtain ⟨e, he, hform, -⟩ | ⟨-, hform, -⟩ := Schema.type_cases ht
  · rw [Schema.Laid, hform] at h
    cases h with
    | enum hmem hfits => simp [Module.wireSize, Module.measure, Measure.own]
  · rw [Schema.Laid, hform] at h
    cases h with
    | cls h => exact hm.measure_eq hsized h (by omega)

include hm

lemma checkKind_of_laid (h : s.InstanceLaid R (.type name) v cells) :
    m.checkKind (.type name) v.viewed = .ok () := by
  cases h with
  | record hfields _ =>
    have hkind := (hm.record name _ hfields).2
    unfold Module.checkKind
    split
    · rename_i heq
      exact absurd heq hkind.1
    · rename_i heq
      exact absurd heq hkind.2
    · rfl
  | union hplan _ _ _ _ =>
    rw [Module.checkKind, hm.union name _ hplan, Value.viewed_object]
    simp [Module.checkArm, Module.isWithin]

variable (ht : s.find? name = some t)

include ht

lemma laid_of_encode (hs : s.Sound) (hF : Narrowed F R) (hv : s.HasType F D name v)
    {bytes : List UInt8} (h : m.encode v = .ok bytes) :
    ∃ cells, s.Laid R name v cells ∧ bytes = Cells.zeroed cells := by
  have hputs : Puts (m.pack (v.depth + 2) v) (s.Laid R name v) := by
    obtain ⟨e, he, hform, -⟩ | ⟨-, hform, -⟩ := Schema.type_cases ht
    · rw [Schema.HasType, hform] at hv
      unfold Schema.Laid
      rw [hform]
      cases hv with
      | enum hmem =>
        rw [Module.pack, Pack.own, hm.unspoilt, if_neg (by simp)]
        refine (puts_variant _).mono ?_
        rintro cells ⟨hfits, rfl⟩
        exact .enum hmem hfits
    · rw [Schema.HasType, hform] at hv
      unfold Schema.Laid
      rw [hform]
      cases hv with
      | cls hv => exact (hm.puts_pack hs hF hv (by omega)).mono fun _ => .cls
  have hinstance : m.encodeInstance v = .ok bytes := by
    cases v with
    | str text =>
      obtain ⟨e, -, hform, -⟩ | ⟨-, hform, -⟩ := Schema.type_cases ht
      all_goals
        rw [Schema.HasType, hform] at hv
        cases hv
      rename_i hv
      cases hv
    | _ => exact h
  rw [Module.encodeInstance, Module.encodeRun] at hinstance
  split at hinstance
  · rename_i out hrun
    cases hinstance
    obtain ⟨cells, rfl, hlaid⟩ := hputs #[] out hrun
    exact ⟨cells, hlaid, by simp [Array.appendList]⟩
  · cases hinstance

lemma encode_of_laid (hs : s.Sound)
    (hR : ∀ bits n, P bits → R bits n → Number.narrow? bits.toNat = some n)
    (h : s.Laid R name v cells) (hfloats : v.AllFloats P) :
    m.encode v = .ok (Cells.zeroed cells) := by
  have hwrites : Writes (m.pack (v.depth + 2) v) cells ∧ ∀ text, v ≠ .str text := by
    obtain ⟨e, he, hform, -⟩ | ⟨-, hform, -⟩ := Schema.type_cases ht
    · rw [Schema.Laid, hform] at h
      cases h with
      | enum hmem hfits =>
        rw [Module.pack, Pack.own, hm.unspoilt, if_neg (by simp)]
        exact ⟨writes_variant hfits, by simp⟩
    · rw [Schema.Laid, hform] at h
      cases h with
      | cls h =>
        refine ⟨hm.writes_pack hs hR h hfloats (by omega), ?_⟩
        cases h <;> simp
  have hencode : m.encode v = m.encodeInstance v := by
    cases v with
    | str text => exact absurd rfl (hwrites.2 text)
    | _ => rfl
  rw [hencode, Module.encodeInstance, Module.encodeRun, hwrites.1 #[]]
  simp [Array.appendList]

lemma decodeAs_of_laid (hs : s.Sound) {rank : String → Nat} (hrank : s.Ranked rank)
    (hR : ∀ bits n, R bits n → bits = UInt64.ofNat (Number.widen n)) (h : s.Laid R name v cells)
    {bs : List UInt8} (hbs : Cells.Fits strict cells bs) (tail : List UInt8) :
    m.decodeAs (s.classNamed name) (some strict) (bs ++ tail) = .ok (v.viewed, tail) := by
  obtain ⟨e, he, hform, hcls⟩ | ⟨-, hform, hcls⟩ := Schema.type_cases ht
  · rw [Schema.Laid, hform] at h
    cases h with
    | enum hmem hfits =>
      have hdistinct := hs.enums t (Schema.mem_of_find? ht).1 e he
      have hread : Reads strict (Read.enum ⟨e.name, e.variants, []⟩) _ _ :=
        reads_enum hmem hfits hdistinct
      have hrun := hread bs hbs (bs ++ tail) tail 0
      simp only [hcls, Module.decodeAs, ClassKey.isEnum, Module.decodeEnum, Globals.enumOf?,
        hm.enum name t e ht he, Input.ofBytes]
      rw [show ((0 : Nat) : Int) = 0 from rfl] at hrun
      simp [hrun, Value.viewed]
  · rw [Schema.Laid, hform] at h
    cases h with
    | cls h =>
      have hlength := hbs.length_eq
      have hlevels : m.ranks * (cells.length / 4) + rank name < m.levels (bs ++ tail).length := by
        have hbounded := hrank.bounded name
        have hranks := hm.ranks
        have hle : cells.length / 4 ≤ (bs ++ tail).length / 4 := by
          rw [length_append, hlength]
          omega
        have hmul := Nat.mul_le_mul_left m.ranks hle
        rw [Module.levels, Nat.mul_add]
        omega
      have hread := hm.reads_unpack hs hrank hR h hlevels bs hbs (bs ++ tail) tail 0
      have hinstance : m.decodeInstance strict (.type name) (bs ++ tail) = .ok (v.viewed, tail) := by
        rw [Module.decodeInstance, Module.decodeRun, Input.ofBytes]
        rw [show ((0 : Nat) : Int) = 0 from rfl] at hread
        rw [hread]
      have hcheck := hm.checkKind_of_laid h
      rw [hcls, Module.decodeAs_cls m rfl, hinstance]
      simp only [bind, Except.bind, hcheck, pure, Except.pure]

lemma laid_of_decodeAs (hs : s.Sound)
    (hR : ∀ n, n < 256 ^ 4 → P (UInt64.ofNat (Number.widen n)) → R (UInt64.ofNat (Number.widen n)) n)
    {data rest : List UInt8} (h : m.decodeAs (s.classNamed name) (some strict) data = .ok (v, rest))
    (hfloats : v.AllFloats P) :
    ∃ cells bs, s.Laid R name v cells ∧ Cells.Fits strict cells bs ∧ data = bs ++ rest ∧
      v.viewed = v := by
  have hrun : ∃ r : Read Value, Takes strict r (fun c w => (w.AllFloats P → s.Laid R name w c) ∧
      w.viewed = w) ∧ ∃ after, r ⟨data, data, (0 : Nat)⟩ = (.ok v, after) ∧ rest = after.rest := by
    obtain ⟨e, he, hform, hcls⟩ | ⟨-, hform, hcls⟩ := Schema.type_cases ht
    · refine ⟨Read.enum ⟨e.name, e.variants, []⟩, (takes_enum _).mono ?_, ?_⟩
      · rintro c w ⟨variant, n, hmem, hfits, rfl, rfl⟩
        refine ⟨fun _ => ?_, by simp [Value.viewed]⟩
        rw [Schema.Laid, hform]
        exact .enum hmem hfits
      · simp only [hcls, Module.decodeAs, ClassKey.isEnum, Module.decodeEnum, Globals.enumOf?,
          hm.enum name t e ht he, if_true] at h
        split at h
        · rename_i input hread
          cases h
          exact ⟨input, hread, rfl⟩
        · cases h
    · refine ⟨m.unpack strict (m.levels data.length) (.type name),
        (hm.takes_unpack hs hR _ name).mono ?_, ?_⟩
      · rintro c w ⟨hlaid, hviewed, -⟩
        refine ⟨fun hall => ?_, hviewed⟩
        rw [Schema.Laid, hform]
        exact .cls (hlaid hall)
      · rw [hcls, Module.decodeAs_cls m rfl] at h
        obtain ⟨found, hfound, h⟩ := bind_ok h
        obtain ⟨_, -, h⟩ := bind_ok h
        cases h
        rw [Module.decodeInstance, Module.decodeRun] at hfound
        split at hfound
        · rename_i input hread
          cases hfound
          exact ⟨input, hread, rfl⟩
        · cases hfound
  obtain ⟨r, htakes, after, hrun, rfl⟩ := hrun
  obtain ⟨cells, bs, tail, hfits, hdata, rfl, hlaid, hviewed⟩ := htakes data data 0 v after hrun
  exact ⟨cells, bs, hlaid hfloats, hfits, hdata, hviewed⟩

end Faithful

deriving instance DecidableEq for UnionPlan

/-- A list of painted entries, each of which holds the next one. -/
def entries : Ast.Specification :=
  let decl name base arity size : Ast.Declaration := ⟨none, name, ⟨none, base, arity, size⟩, none⟩
  let number n : Ast.Value := .literal none n (toString n)
  ⟨none, [
    .enum ⟨none, "color", [⟨none, "RED", number 1, none⟩, ⟨none, "BLUE", number 2, none⟩], none⟩,
    .union ⟨none, "paint", decl "hue" (.named "color") .scalar none,
      [⟨none, [.reference none "RED"], decl "mix" (.builtin .opaqueBytes) .fixed (number 3)⟩],
      some (decl none (.builtin .void) .scalar none), none⟩,
    .struct ⟨none, "entry",
      [decl "name" (.builtin .string) .varying none, decl "next" (.named "entry") .optional none,
       decl "coat" (.named "paint") .scalar none, decl "weight" (.builtin .float) .scalar none],
      none⟩]⟩

namespace Entries

def schema : Schema := (analyze entries).schema.getD ⟨[], []⟩

def loaded : Module := (Module.load schema {}).toOption.getD {}

lemma schema_unambiguous : schema.Unambiguous := by decide +kernel

lemma generates : Generates entries {} schema loaded where
  schema := by decide +kernel
  load := Module.load_eq_getD (by decide +kernel)

def entryType : TypeInfo :=
  (schema.find? "entry").get (by decide +kernel)

lemma entryType_mem : entryType ∈ schema.types := by decide +kernel

def entry (name : String) (next : Value) (mix : List UInt8) (storage : Storage) (weight : UInt64) :
    Value :=
  .object (.type "entry") [("name", .str name), ("next", next),
    ("coat", .object (.arm "paint" "RED")
      [("mix", .bytes mix storage), ("hue", .member "color" "RED" 1)]),
    ("weight", .float weight)]

lemma entry_hasInstance {next : Value}
    (hnext : next = .null ∨ schema.HasInstance F D (.type "entry") next) (name : String)
    (mix : List UInt8) (hstorage : storage.isPlain = true) {weight : UInt64} (hweight : F weight) :
    schema.HasInstance F D (.type "entry") (entry name next mix storage weight) := by
  have hfields : schema.fields? "entry" = some [("name", .string none),
      ("next", .optional (.cls (.cls (.type "entry")))), ("coat", .cls (.cls (.type "paint"))),
      ("weight", .scalar .float)] := by decide +kernel
  let red : ArmPlan := ⟨"RED", [1], ⟨⟨.builtin .opaqueBytes, .fixed, some 3⟩, some "mix"⟩, false⟩
  let color : EnumType := ⟨"color", [("RED", 1), ("BLUE", 2)]⟩
  have hplan : schema.plan? "paint" = some ⟨.scalar (.named "color"), "hue", 4, some color,
      [red, ⟨"default", [], ⟨.scalar (.builtin .void), none⟩, true⟩], [1]⟩ := by decide +kernel
  have hdisc : schema.formOf (.scalar (.named "color")) =
      .enum (.enum ⟨"color", [("RED", 1), ("BLUE", 2)], []⟩) := by decide +kernel
  have hpayload : schema.payload red = [("mix", .fixedOpaque 3)] := by decide +kernel
  have hlink : schema.Types F D (.optional (.cls (.cls (.type "entry")))) next := by
    rcases hnext with rfl | hnext
    · exact .absent
    · exact .present (.cls hnext)
  have hcoat : schema.HasInstance F D (.type "paint") (.object (.arm "paint" "RED")
      [("mix", .bytes mix storage), ("hue", .member "color" "RED" 1)]) := by
    have hvs : schema.TypesAll F D (schema.payload red)
        [("mix", .bytes mix storage)] := by
      rw [hpayload]
      exact .cons (.fixedOpaque hstorage) .nil
    refine .union hplan (a := red) (by simp) ?_ hvs
    simp only
    rw [hdisc]
    exact .enum (e := ⟨"color", [("RED", 1), ("BLUE", 2)], []⟩) (by simp)
  exact .record hfields
    (.cons (.string name) (.cons hlink (.cons (.cls hcoat) (.cons (.scalar (.float hweight)) .nil))))

def two (storage : Storage) : Value :=
  entry "a" (entry "bc" .null [1, 2, 3] storage 0x3FF8000000000000) [4, 5, 6] storage
    0x3FF0000000000000

def twoBytes : List UInt8 :=
  [0, 0, 0, 1, 97, 0, 0, 0, 0, 0, 0, 1, 0, 0, 0, 2, 98, 99, 0, 0, 0, 0, 0, 0, 0, 0, 0, 1, 1, 2, 3, 0,
   63, 192, 0, 0, 0, 0, 0, 1, 4, 5, 6, 0, 63, 128, 0, 0]

lemma two_hasType (hstorage : storage.isPlain = true) (hfirst : F 0x3FF0000000000000)
    (hlast : F 0x3FF8000000000000) : schema.HasType F D entryType.name (two storage) := by
  have hform : schema.formNamed entryType.name = .cls (.cls (.type "entry")) := by decide +kernel
  rw [Schema.HasType, hform]
  exact .cls (entry_hasInstance (.inr (entry_hasInstance (.inl rfl) _ _ hstorage hlast)) _ _ hstorage
    hfirst)

end Entries

end Xdr
