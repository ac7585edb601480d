import Xdr.Proofs.Totality

/-!
# Typedefs on the wire

A typedef that stands for another type in place adds nothing to the bytes.
-/

namespace Xdr

open List

open Ast (Specification)
open Unpack (settle values own_eq)

variable {name : String} {t : TypeInfo} {d : TypedefType} {defs : Definitions} {n : Nat}
  {final shape : Shape} {order : List String}

lemma Ranking.follow_plain_end {rank : String → Nat} (hrank : Ranking defs rank) {s : Shape}
    (hn : s.arity = .scalar → ∀ name, s.base = .named name → rank name < n)
    (harity : (defs.follow n s).arity = .scalar) (hbase : (defs.follow n s).base = .named name)
    (t : TypedefType) : defs.find? name ≠ some (.typedef t) := by
  induction n generalizing s with
  | zero => exact absurd (hn harity name hbase) (Nat.not_lt_zero _)
  | succ n ih =>
    rw [Definitions.follow] at harity hbase
    split at harity
    · rename_i other hscalar hother
      simp only [hscalar, hother] at hbase
      split at harity
      · rename_i d hd
        simp only [hd] at hbase
        refine ih (fun hscalar' target htarget => ?_) harity hbase
        have hless := hrank.rank_lt_of_typedef hd hscalar' htarget
        have hbound := hn hscalar other hother
        omega
      · rename_i hno
        split at hbase
        · rename_i d hd
          exact absurd hd (hno d)
        · cases hbase
          exact hno t
    · rename_i hplain
      split at hbase
      · rename_i other hscalar hother
        exact absurd hother (hplain other hscalar)
      · exact absurd hbase (hplain name harity)

namespace Schema

variable {s : Schema}

lemma definitions_find? (s : Schema) (name : String) :
    s.definitions.find? name = (s.find? name).map (·.definition) := by
  rw [definitions, Definitions.find?, find?_map]
  rfl

/-- The typedefs around the values of a type, outermost first. -/
def wrappers (s : Schema) (name : String) : List String :=
  (s.unwrap (s.types.length + 1) (.scalar (.named name))).1

lemma exists_wrappers_cons (ht : s.find? name = some t) (hd : t.definition = .typedef d) :
    ∃ inner, s.wrappers name = name :: inner := by
  obtain ⟨_, _, _, _, _⟩ := t
  cases hd
  refine ⟨(s.unwrap s.types.length d.decl.toShape).1, ?_⟩
  simp only [wrappers, unwrap, Shape.scalar, ht]

lemma formOf_unwrap (n : Nat) (shape : Shape) :
    s.formOf (s.unwrap n shape).2 = s.formOf (s.definitions.follow n shape) := by
  induction n generalizing shape with
  | zero => rfl
  | succ n ih =>
    obtain ⟨base, arity, length⟩ := shape
    cases arity with
    | scalar =>
      cases base with
      | builtin b => rfl
      | named name =>
        simp only [unwrap, Definitions.follow, definitions_find?]
        rcases s.find? name with _ | ⟨d, _, _, _, _⟩
        · rfl
        · cases d with
          | typedef d => exact ih d.decl.toShape
          | _ => rfl
    | _ => rfl

end Schema

namespace Module

def encodeForm (m : Module) (form : Form) (v : Value) : Except Fault (List UInt8) :=
  match form.write ⟨m.conduct, m.pack (v.depth + 2), m.elements⟩ v #[] with
  | (.ok _, out) => .ok out.toList
  | (.error f, _) => .error f

/-- The value of a form at the front of the data, and the bytes behind it. -/
def decodeForm (m : Module) (form : Form) (strict : Bool) :
    List UInt8 → Except Fault (Value × List UInt8) :=
  Read.found fun size =>
    form.read ⟨strict, m.unpack strict (m.levels size), fun key args => m.construct key args []⟩

end Module

lemma Read.found_map (f : Value → Value) (r : Nat → Read Value) (data : List UInt8) :
    Read.found (fun size => f <$> r size) data =
      (Read.found r data).map fun found => (f found.1, found.2) := by
  simp only [found, map_eq_pure_bind]
  cases hrun : r data.length (Input.ofBytes data) with
  | mk result j =>
    cases result with
    | ok v =>
      rw [run_bind_of_ok hrun]
      rfl
    | error g =>
      rw [run_bind_of_error hrun]
      rfl

lemma depth_wrapped (wrappers : List String) (v : Value) :
    (wrapped wrappers v).depth = v.depth + wrappers.length := by
  induction wrappers with
  | nil => rfl
  | cons name rest ih =>
    rw [wrapped_cons, Value.depth, Value.depthFields, Value.depthField, ih]
    simp [Value.depthFields, Nat.add_assoc]

lemma Module.Tame.unpack_add {m : Module} {names : List String} (hm : m.Tame names)
    (strict : Bool) {key : ClassKey} {i : Input} (hi : 0 ≤ i.offset)
    (hends : ∀ j, m.unpack strict n key i ≠ (.error .tooDeep, j)) (k : Nat) :
    m.unpack strict (n + k) key i = m.unpack strict n key i := by
  induction k with
  | zero => rfl
  | succ k ih =>
    rw [← ih]
    refine hm.unpack_succ strict (n + k) key hi fun f j hrun hdeep => ?_
    rw [ih, hdeep] at hrun
    exact hends j hrun

namespace Faithful

variable {s : Schema} {lib : Imports.Support} {m : Module} (hm : Faithful s lib m)

include hm

lemma body_typedef (ht : s.find? name = some t) (hd : t.definition = .typedef d) :
    m.body? (.type name) = some (.record [s.slotOf lib "value" d.decl.toShape]) := by
  rw [hm.body, ht, Option.bind_some, hd]
  rfl

lemma pack_wrapper (ht : s.find? name = some t) (hd : t.definition = .typedef d) (n : Nat)
    (v : Value) :
    m.pack (n + 1) (.object (.type name) [("value", v)]) =
      (s.formOf d.decl.toShape).write ⟨m.conduct, m.pack n, m.elements⟩ v := by
  obtain ⟨-, -, hfields⟩ := Schema.formNamed_of_typedef ht hd
  have hkeeps := (hm.record name _ hfields).1
  have hattr := hkeeps.attr [("value", v)] rfl ("value", v) (.head _)
  simp only [Module.pack, Pack.own, hkeeps.reachable, Write.settle, pure_bind, hm.body_typedef ht hd,
    Pack.slots, Schema.slotOf, hattr]
  exact bind_pure_unit

lemma unpack_wrapper (ht : s.find? name = some t) (hd : t.definition = .typedef d) (strict : Bool)
    (n : Nat) :
    m.unpack strict (n + 1) (.type name) =
      (fun v => .object (.type name) [("value", v)]) <$> (s.formOf d.decl.toShape).read
        ⟨strict, m.unpack strict n, fun key args => m.construct key args []⟩ := by
  obtain ⟨-, -, hfields⟩ := Schema.formNamed_of_typedef ht hd
  have hkeeps := (hm.record name _ hfields).1
  have hmake : ∀ v, m.construct (.type name) [v] [] = .ok (.object (.type name) [("value", v)]) :=
    fun v => hkeeps.construct [v] rfl
  rw [Module.unpack, own_eq]
  simp only [ClassKey.reader, hm.readable, Bool.not_true, Bool.false_eq_true, ite_false,
    hm.body_typedef ht hd, values, Schema.slotOf, bind_assoc, pure_bind, hmake, settle,
    map_eq_pure_bind]

lemma write_wrapped {wrappers : List String}
    (h : s.Wraps shape wrappers final) (n : Nat) (v : Value) :
    (s.formOf shape).write ⟨m.conduct, m.pack (n + wrappers.length), m.elements⟩ (wrapped wrappers v) =
      (s.formOf final).write ⟨m.conduct, m.pack n, m.elements⟩ v := by
  induction h with
  | refl shape => rfl
  | @cons name t d length inner final ht hd _ ih =>
    obtain ⟨hnamed, -, -⟩ := Schema.formNamed_of_typedef ht hd
    have hform : s.formOf ⟨.named name, .scalar, length⟩ = .cls (.cls (.type name)) := hnamed
    rw [hform, wrapped_cons, ← ih]
    exact hm.pack_wrapper ht hd (n + inner.length) (wrapped inner v)

lemma read_wrapped {wrappers : List String}
    (h : s.Wraps shape wrappers final) (strict : Bool) (n : Nat) :
    (s.formOf shape).read
        ⟨strict, m.unpack strict (n + wrappers.length), fun key args => m.construct key args []⟩ =
      wrapped wrappers <$> (s.formOf final).read
        ⟨strict, m.unpack strict n, fun key args => m.construct key args []⟩ := by
  induction h with
  | refl shape => exact (id_map _).symm
  | @cons name t d length inner final ht hd _ ih =>
    obtain ⟨hnamed, -, -⟩ := Schema.formNamed_of_typedef ht hd
    have hform : s.formOf ⟨.named name, .scalar, length⟩ = .cls (.cls (.type name)) := hnamed
    rw [hform]
    refine (hm.unpack_wrapper ht hd strict (n + inner.length)).trans ?_
    rw [ih, Functor.map_map]
    rfl

end Faithful

lemma TypeOrder.ask_canonical (horder : TypeOrder defs order)
    {asked : List String} (hasked : ∀ name ∈ asked, ∃ d ∈ defs, d.name = name) :
    ∃ answers known, (defs.askAll asked).run [] = some (answers, known) ∧ defs.Remembers known ∧
      ∀ d ∈ defs, ∀ n, defs.length < n →
        ∃ more, (defs.ask n d.name).run known = some ((defs.info order d).canonical, more) := by
  have hempty : defs.Remembers [] := nofun
  obtain ⟨known, hknown, hlearns⟩ :=
    horder.askAll_eq (fun name hname => (horder.mem_iff name).2 (hasked name hname)) hempty
  refine ⟨_, known, hknown, hlearns.right, fun d hd n hn => ?_⟩
  have hbound := (horder.ranking.bounded d.name).trans_lt hn
  obtain ⟨more, hmore, -⟩ :=
    horder.ask_eq ((horder.mem_iff d.name).2 ⟨d, hd, rfl⟩) hbound hlearns.right
  refine ⟨more, ?_⟩
  rw [hmore, Definitions.info, horder.lookup_canonicals hd]
  rfl

lemma Elaborated.canonicalBy_member {spec : Specification} {constants : List (String × Int)}
    (h : Elaborated spec defs) (horder : TypeOrder defs order)
    {known : Canonicals} (hknown : defs.Remembers known) {d : Definition} (hd : d ∈ defs) {m : Decl}
    (hm : m ∈ d.members) (hn : defs.length < n) :
    ∃ more, (m.canonicalBy (defs.ask n)).run known =
      some ((defs.schema constants defs.graph order).canonical m.toShape, more) := by
  have hdefined : ∀ name, m.base = .named name → ∃ r, defs.find? name = some r :=
    fun name hbase => h.exists_defined hd hm hbase
  obtain ⟨more, hmore, -⟩ := Definitions.canonicalBy_eq (n := n) (s := m.toShape) hknown
    fun _ name hbase => by
      obtain ⟨r, hr⟩ := hdefined name hbase
      refine horder.ask_eq ((horder.mem_iff name).2 ⟨r, (h.find?_iff name r).1 hr⟩) ?_ hknown
      exact (horder.ranking.bounded name).trans_lt hn
  exact ⟨more, by rw [hmore, h.schema_canonical horder _ hdefined]⟩

lemma Generates.decodeType_enum {spec : Specification} {c : Config} {s : Schema} {m : Module}
    (h : Generates spec c s m) (hn : s.Unambiguous) (ht : t ∈ s.types) {e : EnumType}
    (he : t.definition = .enum e) (strict : Bool) (data : List UInt8) :
    m.decodeType t.name strict data = Read.found (fun _ => Read.enum ⟨e.name, e.variants, []⟩) data := by
  obtain ⟨lib, -, hm⟩ := h.faithful hn
  have hfind := h.sound.find?_name ht
  rw [h.decodeType_eq hn ht]
  obtain ⟨e', he', -, hcls⟩ | ⟨hnot, -, -⟩ := Schema.type_cases hfind
  · cases he.symm.trans he'
    have hkey : (ClassKey.enum t.name).isEnum = true := rfl
    rw [hcls, Module.decodeAs, if_pos hkey, Module.decodeEnum, Globals.enumOf?,
      hm.enum t.name t e hfind he]
    rfl
  · exact absurd he (hnot e)

section

variable {spec : Specification} {c : Config} {s : Schema} {m : Module} (h : Generates spec c s m)
  (hn : s.Unambiguous) {t : TypeInfo} (ht : t ∈ s.types) (hnot : ∀ e, t.definition ≠ .enum e)

include h hn ht hnot

lemma Generates.isSettled_instance (strict : Bool) (data : List UInt8) :
    IsSettled (m.decodeInstance strict (.type t.name) data) := by
  obtain ⟨lib, -, hm⟩ := h.faithful hn
  obtain ⟨rank, hrank⟩ := h.ranked
  exact hm.isSettled_decodeInstance h.sound h.closed hrank h.tame strict
    ⟨t, h.sound.find?_name ht, hnot⟩ data

lemma Generates.decodeType_instance (strict : Bool) (data : List UInt8) :
    m.decodeType t.name strict data = m.decodeInstance strict (.type t.name) data := by
  obtain ⟨lib, -, hm⟩ := h.faithful hn
  rw [h.decodeType_eq hn ht]
  obtain ⟨e, he, -, -⟩ | ⟨-, -, hcls⟩ := Schema.type_cases (h.sound.find?_name ht)
  · exact absurd he (hnot e)
  · rw [hcls, Module.decodeAs_cls m rfl]
    cases hfound : m.decodeInstance strict (.type t.name) data with
    | error f => rfl
    | ok found =>
      simp only [bind, Except.bind, hm.checkKind_of_decodeInstance h.sound hfound]
      rfl

end

lemma wraps_canonical {spec : Specification} {s : Schema} (h : (analyze spec).schema = some s)
    (ht : t ∈ s.types) :
    ∃ final, s.Wraps (.scalar (.named t.name)) (s.wrappers t.name) final ∧
      s.formOf final = s.formOf t.canonical := by
  have hform := s.formOf_unwrap (s.types.length + 1) (.scalar (.named t.name))
  refine ⟨_, Schema.unwrap_wraps rfl, hform.trans (congrArg s.formOf ?_)⟩
  obtain ⟨-, order, -, horder, rfl⟩ := schema_of_analyze h
  obtain ⟨d, hd, rfl⟩ := mem_map.1 (Definitions.schema_types _ _ _ ▸ ht)
  rw [Definitions.schema_definitions, Definitions.schema_types, length_map, Definitions.info,
    horder.lookup_canonicals hd]
  rfl

namespace Generates

variable {spec : Specification} {c : Config} {s : Schema} {m : Module} (h : Generates spec c s m)
  (hn : s.Unambiguous) {t : TypeInfo} (ht : t ∈ s.types) {d : TypedefType}
  (hd : t.definition = .typedef d)

include h hn ht hd

lemma encode_wrapped (w : Value) :
    m.encode (wrapped (s.wrappers t.name) w) = m.encodeForm (s.formOf t.canonical) w := by
  obtain ⟨lib, -, hm⟩ := h.faithful hn
  obtain ⟨final, hwraps, hform⟩ := wraps_canonical h.schema ht
  have hfind := h.sound.find?_name ht
  obtain ⟨hnamed, -, -⟩ := Schema.formNamed_of_typedef hfind hd
  have hencode : m.encode (wrapped (s.wrappers t.name) w) =
      m.encodeForm (s.formNamed t.name) (wrapped (s.wrappers t.name) w) := by
    obtain ⟨inner, hinner⟩ := Schema.exists_wrappers_cons hfind hd
    rw [hnamed, hinner]
    rfl
  have hwrite : (s.formNamed t.name).write
      ⟨m.conduct, m.pack (w.depth + 2 + (s.wrappers t.name).length), m.elements⟩ _ = _ :=
    hm.write_wrapped hwraps (w.depth + 2) w
  rw [hencode, Module.encodeForm, depth_wrapped, Nat.add_right_comm, hwrite, hform]
  rfl

lemma decodeType_wrapped (strict : Bool) (data : List UInt8) :
    m.decodeType t.name strict data = (m.decodeForm (s.formOf t.canonical) strict data).map
      fun found => (wrapped (s.wrappers t.name) found.1, found.2) := by
  obtain ⟨lib, -, hm⟩ := h.faithful hn
  obtain ⟨final, hwraps, hform⟩ := wraps_canonical h.schema ht
  have hnot : ∀ e, t.definition ≠ .enum e := fun e he => by rw [hd] at he; cases he
  have hsettled := h.isSettled_instance hn ht hnot strict data
  -- the levels for the data suffice, so those of the wrappers may be added
  have hends : ∀ j, m.unpack strict (m.levels data.length) (.type t.name) (Input.ofBytes data) ≠
      (.error .tooDeep, j) := by
    intro j hrun
    have hfound : m.decodeInstance strict (.type t.name) data = .error .tooDeep := by
      rw [Module.decodeInstance, Module.decodeRun, hrun]
    rw [hfound] at hsettled
    obtain ⟨v, rest, hok⟩ | ⟨f, herror⟩ := hsettled
    · cases hok
    · cases herror
  have hmore : m.unpack strict (m.levels data.length + (s.wrappers t.name).length) (.type t.name)
      (Input.ofBytes data) = _ := h.tame.unpack_add strict le_rfl hends _
  obtain ⟨hnamed, -, -⟩ := Schema.formNamed_of_typedef (h.sound.find?_name ht) hd
  have hread : m.unpack strict (m.levels data.length + (s.wrappers t.name).length) (.type t.name) =
      wrapped (s.wrappers t.name) <$> (s.formOf t.canonical).read
        ⟨strict, m.unpack strict (m.levels data.length), fun key args => m.construct key args []⟩ := by
    have hread := hm.read_wrapped hwraps strict (m.levels data.length)
    rwa [show s.formOf (.scalar (.named t.name)) = _ from hnamed, hform] at hread
  rw [h.decodeType_instance hn ht hnot, Module.decodeInstance, Module.decodeRun, ← hmore, hread,
    Module.decodeForm, ← Read.found_map]
  rfl

end Generates

/-- In an accepted specification every type has a canonical shape, which is found whatever was asked
before and is no typedef in place, and declarations have the canonical shapes that the schema gives
them. Under unambiguous names a typedef is its canonical shape on the wire: its values are those of the
canonical shape within one wrapper for each typedef on the way, and they are encoded and decoded as
those are, with the same faults. -/
theorem canonical_transparent {spec : Specification} {s : Schema} (h : (analyze spec).schema = some s) :
    (∀ asked : List String, (∀ name ∈ asked, ∃ t ∈ s.types, t.name = name) →
      ∃ answers known, (s.definitions.askAll asked).run [] = some (answers, known) ∧
        ∀ t ∈ s.types, ∀ n, s.types.length < n →
          (∃ more, (s.definitions.ask n t.name).run known = some (t.canonical, more)) ∧
          ∀ m ∈ t.definition.members, ∃ more,
            (m.canonicalBy (s.definitions.ask n)).run known = some (s.canonical m.toShape, more)) ∧
    (∀ t ∈ s.types, t.canonical.arity = .scalar → ∀ name, t.canonical.base = .named name →
      ∀ i, s.find? name = some i → ∀ d, i.definition ≠ .typedef d) ∧
    ∀ c m, Module.load s c = .ok m → s.Unambiguous → ∀ t ∈ s.types, ∀ d, t.definition = .typedef d →
      (∀ F D v, s.HasType F D t.name v ↔ ∃ w, v = wrapped (s.wrappers t.name) w ∧
        FormTyped (s.HasInstance F D) F D (s.formOf t.canonical) w) ∧
      (∀ w, m.encode (wrapped (s.wrappers t.name) w) = m.encodeForm (s.formOf t.canonical) w) ∧
      ∀ strict data, m.decodeType t.name strict data =
        (m.decodeForm (s.formOf t.canonical) strict data).map
          fun found => (wrapped (s.wrappers t.name) found.1, found.2) := by
  refine ⟨?_, ?_, fun c m hload hn t ht d hd => ⟨fun F D v => ?_, ?_, ?_⟩⟩
  · obtain ⟨-, order, hmade, horder, rfl⟩ := schema_of_analyze h
    simp only [Definitions.schema_definitions, Definitions.schema_types, forall_mem_map,
      length_map]
    intro asked hasked
    have hdefined : ∀ name ∈ asked, ∃ d ∈ (resolution spec).1, d.name = name := by
      intro name hname
      obtain ⟨t, ht, rfl⟩ := hasked name hname
      obtain ⟨d, hd, rfl⟩ := mem_map.1 ht
      exact ⟨d, hd, rfl⟩
    obtain ⟨answers, known, hknown, hright, hanswers⟩ := horder.ask_canonical hdefined
    refine ⟨answers, known, hknown, fun d hd n hn => ⟨hanswers d hd n hn, fun m hm => ?_⟩⟩
    exact hmade.canonicalBy_member horder hright hd hm hn
  · obtain ⟨-, order, -, horder, rfl⟩ := schema_of_analyze h
    simp only [Definitions.schema_types, forall_mem_map]
    intro d hd harity name hbase i hi t ht
    obtain ⟨e, he, rfl⟩ := Definitions.schema_find?_eq_some_iff.1 hi
    rw [Definitions.info, horder.lookup_canonicals hd] at harity hbase
    refine horder.ranking.follow_plain_end (fun _ other _ => ?_) harity hbase t (ht ▸ he)
    exact Nat.lt_succ_of_le (horder.ranking.bounded other)
  · obtain ⟨final, hwraps, hform⟩ := wraps_canonical h ht
    rw [← hform]
    exact hwraps.typed_iff v
  · exact Generates.encode_wrapped ⟨h, hload⟩ hn ht hd
  · exact Generates.decodeType_wrapped ⟨h, hload⟩ hn ht hd

namespace Spots

def spec : Specification :=
  let same name base arity size : Ast.Definition :=
    .typedef ⟨none, name, ⟨none, some name, ⟨none, base, arity, size⟩, none⟩, none⟩
  ⟨none, [same "spot" (.named "point") .scalar none, same "point" (.named "pair") .scalar none,
    same "pair" (.builtin .int) .fixed (some (.literal none 2 "2"))]⟩

def target : TypedefType := ⟨"spot", ⟨.scalar (.named "point"), some "spot"⟩⟩

def schema : Schema := (analyze spec).schema.getD ⟨[], []⟩

def loaded : Module := (Module.load schema {}).toOption.getD {}

lemma generates : Generates spec {} schema loaded where
  schema := by decide +kernel
  load := Module.load_eq_getD (by decide +kernel)

end Spots

/-- A spot is a pair within three wrappers. -/
theorem canonical_transparent_spot :
    Generates Spots.spec {} Spots.schema Spots.loaded ∧ Spots.schema.Unambiguous ∧
    (∀ v, Spots.schema.HasType (fun _ => True) (fun _ => True) "spot" v →
      ∃ w, v = wrapped ["spot", "point", "pair"] w ∧
        Spots.loaded.encode v = Spots.loaded.encodeForm (.fixedArray 2 (.scalar .int)) w) ∧
    ∀ strict data, Spots.loaded.decodeType "spot" strict data =
      (Spots.loaded.decodeForm (.fixedArray 2 (.scalar .int)) strict data).map
        fun found => (wrapped ["spot", "point", "pair"] found.1, found.2) := by
  have hnames : Spots.schema.Unambiguous := by decide +kernel
  let spot : TypeInfo := (Spots.schema.find? "spot").get (by decide +kernel)
  have hspot : spot ∈ Spots.schema.types := by decide +kernel
  have htypedef : spot.definition = .typedef Spots.target := by
    decide +kernel
  have hname : spot.name = "spot" := by decide +kernel
  have hwrappers : Spots.schema.wrappers "spot" = ["spot", "point", "pair"] := by decide +kernel
  have hform : Spots.schema.formOf spot.canonical = .fixedArray 2 (.scalar .int) := by decide +kernel
  obtain ⟨-, -, hwire⟩ := canonical_transparent Spots.generates.schema
  obtain ⟨htyped, hencode, hdecode⟩ :=
    hwire {} Spots.loaded Spots.generates.load hnames spot hspot _ htypedef
  rw [hname, hwrappers, hform] at htyped hencode hdecode
  refine ⟨Spots.generates, hnames, fun v hv => ?_, hdecode⟩
  obtain ⟨w, rfl, -⟩ := (htyped _ _ v).1 hv
  exact ⟨w, rfl, hencode w⟩

end Xdr
