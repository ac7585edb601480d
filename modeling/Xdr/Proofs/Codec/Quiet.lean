import Xdr.Proofs.Module.Binding
import Xdr.Codec.Unpack

/-!
# Faults of values are not faults of bytes

Whatever the names of a module come to stand for, what is done with values alone, their construction,
comparison and display, never tells that bytes are wrong. Only readers do.
-/

namespace Xdr

open List

variable {f : Fault} {field : String} {h : ClassHead}

def Quiet {α : Type} (x : Except Fault α) : Prop := ∀ f, x ≠ .error (.decode f)

namespace Quiet

variable {α β : Type}

lemma ok (a : α) : Quiet (.ok a : Except Fault α) := fun _ h => by cases h

lemma pure (a : α) : Quiet (Pure.pure a : Except Fault α) := ok a

lemma throw (h : ∀ g, f ≠ .decode g) : Quiet (throw f : Except Fault α) := by
  intro g hg
  exact h g (Except.error.inj hg)

lemma bind {x : Except Fault α} {f : α → Except Fault β} (hx : Quiet x) (hf : ∀ a, Quiet (f a)) :
    Quiet (x >>= f) := by
  cases x with
  | ok a => exact hf a
  | error e =>
    intro g h
    cases h
    exact hx g rfl

lemma map {x : Except Fault α} {f : α → β} (hx : Quiet x) : Quiet (x.map f) := by
  cases x with
  | ok a => exact ok (f a)
  | error e =>
    intro g h
    cases h
    exact hx g rfl

lemma foldlM {f : β → α → Except Fault β} (hf : ∀ b a, Quiet (f b a)) (as : List α) (b : β) :
    Quiet (as.foldlM f b) := by
  induction as generalizing b with
  | nil => exact ok b
  | cons a as ih => exact (hf b a).bind ih

lemma foldrM {f : α → β → Except Fault β} (as : List α) (hf : ∀ a ∈ as, ∀ b, Quiet (f a b)) (b : β) :
    Quiet (as.foldrM f b) := by
  induction as with
  | nil => exact ok b
  | cons a as ih =>
    rw [foldrM_cons]
    exact (ih fun a' ha' => hf a' (.tail a ha')).bind (hf a (.head _))

lemma anyM {p : α → Except Fault Bool} (as : List α) (hp : ∀ a ∈ as, Quiet (p a)) :
    Quiet (as.anyM p) := by
  induction as with
  | nil => exact ok false
  | cons a as ih =>
    refine (hp a (.head _)).bind fun found => ?_
    cases found with
    | true => exact ok true
    | false => exact ih fun a' ha' => hp a' (.tail a ha')

lemma findM? {p : α → Except Fault Bool} (hp : ∀ a, Quiet (p a)) (as : List α) :
    Quiet (as.findM? p) := by
  induction as with
  | nil => exact ok none
  | cons a as ih =>
    refine (hp a).bind fun found => ?_
    cases found with
    | true => exact ok (some a)
    | false => exact ih

lemma forM {f : α → Except Fault PUnit} (hf : ∀ a, Quiet (f a)) (as : List α) :
    Quiet (as.forM f) := by
  induction as with
  | nil => exact ok _
  | cons a as ih => exact (hf a).bind fun _ => ih

lemma forIn {f : α → β → Except Fault (ForInStep β)} (hf : ∀ a b, Quiet (f a b)) (as : List α)
    (b : β) : Quiet (ForIn.forIn as b f) := by
  induction as generalizing b with
  | nil => exact ok b
  | cons a as ih =>
    rw [forIn_cons]
    refine (hf a b).bind fun step => ?_
    cases step with
    | done b => exact ok b
    | yield b => exact ih b

end Quiet

lemma EnumClass.quiet_search (e : EnumClass) {test : Int → Except Fault Bool}
    (h : ∀ n, Quiet (test n)) : Quiet (e.search test) := by
  have hfound : Quiet (e.members.findM? fun m => test m.2) := .findM? (fun m => h m.2) e.members
  exact hfound.bind fun _ => .pure _

lemma EnumClass.missing_ne_decode (e : EnumClass) (f : DecodeFault) : e.missing ≠ .decode f := by
  unfold missing
  split_ifs <;> simp

lemma EnumClass.quiet_member (e : EnumClass) (v : Value) : Quiet (e.member v) := by
  refine (e.quiet_search fun n => .ok _).bind fun found => ?_
  cases found with
  | some v => exact .ok v
  | none => exact .throw e.missing_ne_decode

lemma EnumClass.quiet_call {find : Value → Except Fault Value} (h : ∀ v, Quiet (find v))
    (args : List Value) (named : Fields) : Quiet (EnumClass.call find args named) := by
  unfold call
  dsimp only
  split
  · exact h _
  · exact h _
  · split_ifs
    · simp [Quiet]
    · exact h _
  · simp [Quiet]

lemma Measurer.quiet_call (f : Measurer) (args : List Value) (named : Fields) :
    Quiet (f.call args named) := by
  have happly : ∀ v, Quiet (f.apply v) := by
    intro v
    unfold apply
    dsimp only
    cases f with
    | padded | padding => cases v.wholeNumber? <;> simp [Quiet]
    | text => exact Quiet.map (by cases v <;> simp [Quiet, ofText])
    | bytes => exact Quiet.map (by cases v <;> simp [Quiet, ofBytes])
  unfold call
  split
  · exact happly _
  · split_ifs
    · exact happly _
    · simp [Quiet]
  · simp [Quiet]

namespace Globals

variable (g : Globals)

lemma quiet_lookup (name : String) : Quiet (g.lookup name) := by
  unfold lookup
  split <;> simp [Quiet]

lemma quiet_fillFields (fields : List Field) (args : List Value) (named : Fields) :
    Quiet (fillFields fields args named) := by
  fun_induction fillFields fields args named with
  | case1 => exact .ok _
  | case2 | case3 => simp [Quiet]
  | case4 _ _ _ _ _ _ ih | case5 _ _ _ _ _ ih | case6 _ _ _ _ _ _ ih => exact ih.map
  | case7 => simp [Quiet]

lemma obstacle?_ne_decode (hf : g.obstacle? h = some f) (d : DecodeFault) : f ≠ .decode d := by
  unfold obstacle? at hf
  dsimp only at hf
  split_ifs at hf <;> cases hf <;> simp

lemma setterFault_ne_decode (setter : Value) (d : DecodeFault) : g.setterFault setter ≠ .decode d := by
  unfold setterFault
  split
  · split_ifs <;> simp
  · simp

lemma guardFault?_ne_decode (hf : g.guardFault? h field = some f) (d : DecodeFault) :
    f ≠ .decode d := by
  obtain ⟨v, -, hf⟩ := Option.bind_eq_some_iff.1 hf
  split_ifs at hf <;> cases hf <;> simp

lemma unsettable_ne_decode (hf : unsettable.lookup field = some f) (d : DecodeFault) :
    f ≠ .decode d := by
  obtain ⟨before, behind, hsplit, -⟩ := lookup_eq_some_iff.1 hf
  have hmem : (field, f) ∈ unsettable := hsplit ▸ mem_append_right before (.head _)
  simp only [unsettable, mem_cons, Prod.mk.injEq, not_mem_nil, or_false] at hmem
  rcases hmem with ⟨-, rfl⟩ | ⟨-, rfl⟩ <;> simp

lemma quiet_construct (key : ClassKey) (args : List Value) (named : Fields) :
    Quiet (g.construct key args named) := by
  unfold construct
  split
  · exact .throw (by simp)
  · rename_i h hhead
    extract_lets rest
    have hrest : ∀ u, Quiet (rest u) := by
      intro u
      refine (quiet_fillFields h.fields args named).bind fun fields => ?_
      extract_lets made done loop
      have hdone : ∀ u, Quiet (done u) := fun _ => .pure made
      have hloop : ∀ u, Quiet (loop u) := by
        intro u
        refine (Quiet.forIn (fun f _ => ?_) h.fields PUnit.unit).bind fun _ => ?_
        · extract_lets guarded
          have hguarded : ∀ u, Quiet (guarded u) := by
            intro u
            dsimp only [guarded]
            split
            · rename_i hf
              exact (Quiet.throw (g.guardFault?_ne_decode hf)).bind fun _ => .pure _
            · exact .pure _
          split_ifs
          · split
            · rename_i hf
              exact (Quiet.throw (unsettable_ne_decode hf)).bind hguarded
            · exact hguarded ()
          · exact hguarded ()
        · split_ifs
          · exact (Quiet.throw (by simp)).bind hdone
          · exact hdone ()
      split
      · split_ifs
        · exact (Quiet.throw (g.setterFault_ne_decode _)).bind hloop
        · exact hloop ()
      · exact hloop ()
    split
    · rename_i hf
      exact (Quiet.throw (g.obstacle?_ne_decode hf)).bind hrest
    · exact hrest ()

lemma quiet_call (callee : Value) (args : List Value) (named : Fields) :
    Quiet (g.call callee args named) := by
  unfold call
  split
  · split
    · exact EnumClass.quiet_call (EnumClass.quiet_member _) args named
    · exact g.quiet_construct _ args named
  · exact Measurer.quiet_call _ args named
  · simp [Quiet]

lemma quiet_attr (v : Value) (name : String) : Quiet (g.attr v name) := by
  unfold attr
  split
  · exact g.quiet_call _ _ _
  · exact .ok _
  · split
    · exact g.quiet_call _ _ _
    · simp [Quiet]
  · simp [Quiet]

lemma quiet_builtin (name : String) : Quiet (g.builtin name) := by
  unfold builtin
  split
  · exact .ok _
  · split_ifs <;> simp [Quiet]

lemma quiet_builtinCall (name : String) (args : List Value) : Quiet (g.builtinCall name args) := by
  refine (g.quiet_builtin name).bind fun found => ?_
  cases found with
  | none => exact .ok ()
  | some v => exact (g.quiet_call v args []).bind fun _ => .throw (by simp)

lemma quiet_truth (v : Value) : Quiet (g.truth v) := by
  unfold truth
  dsimp only
  split_ifs <;> simp [Quiet]

lemma quiet_label (key : ClassKey) (p : UnionPlan) (n : Int) : Quiet (g.label key p n) := by
  unfold label
  split
  · exact (g.quiet_lookup _).bind fun v => g.quiet_attr v _
  · exact .ok _

end Globals

namespace Module

variable (m : Module)

lemma quiet_canReverse : Quiet m.canReverse := m.quiet_builtinCall _ _

lemma quiet_next (c : ChainBody) (node : Value) : Quiet (m.next c node) :=
  (m.quiet_attr node c.link).bind fun v => .foldlM (fun v _ => m.quiet_attr v "value") c.wrappers v

section

variable {self : Value → Except Fault String} (hself : ∀ v, Quiet (self v))

include hself

lemma quiet_shownAll (vs : List Value) : Quiet (Shown.all self vs) := by
  induction vs with
  | nil => exact .ok _
  | cons v vs ih => exact (hself v).bind fun _ => ih.bind fun _ => .pure _

lemma quiet_shownFields (fields : Fields) : Quiet (Shown.fields self fields) := by
  induction fields with
  | nil => exact .ok _
  | cons f fields ih => exact (hself f.2).bind fun _ => ih.bind fun _ => .pure _

lemma quiet_shownSlots (node : Value) (slots : List Slot) :
    Quiet (Shown.slots m self node slots) := by
  induction slots with
  | nil => exact .ok _
  | cons s slots ih =>
    exact (m.quiet_attr node s.attr).bind fun v => (hself v).bind fun _ => ih.bind fun _ => .pure _

lemma quiet_shownChain (c : ChainBody) (n : Nat) (node : Value) (parts tails : List String) :
    Quiet (Shown.chain m self c n node parts tails) := by
  induction n generalizing node parts tails with
  | zero => simp [Quiet, Shown.chain]
  | succ n ih =>
    rw [Shown.chain]
    split_ifs
    · exact .ok _
    · exact (m.quiet_shownSlots hself node c.before).bind fun _ =>
        (m.quiet_shownSlots hself node c.behind).bind fun _ =>
        (m.quiet_next c node).bind fun next => ih next _ _

end

lemma quiet_shownName (key : ClassKey) (fields : Fields) :
    Quiet (m.shownName key fields) := by
  unfold shownName
  split
  · exact .ok _
  · exact .ok _
  · refine (m.quiet_attr _ _).bind fun v => ?_
    split
    · exact .pure _
    · exact .throw (by simp)

lemma quiet_textAt (n : Nat) (v : Value) : Quiet (m.textAt n v) := by
  induction n generalizing v with
  | zero => simp [Quiet, textAt]
  | succ n ih =>
    have hinstance : ∀ key fields, Quiet (do
        let name ← m.shownName key fields
        let texts ← Shown.fields (m.textAt n) fields
        return name ++ "(" ++ String.intercalate ", " texts ++ ")") := fun key fields =>
      (m.quiet_shownName key fields).bind fun _ => (quiet_shownFields ih fields).bind fun _ => .pure _
    have hunveiled : ∀ (v : Value) (x : Except Fault String), Quiet x →
        Quiet (do let _ ← m.attr v "__class__"; throw .tooDeep; x) := fun v x hx =>
      (m.quiet_attr v _).bind fun _ => (Quiet.throw (by simp)).bind fun (_ : PUnit) => hx
    rw [textAt.eq_def]
    dsimp only
    split
    · exact (quiet_shownAll ih _).bind fun _ => .pure _
    · split
      · exact (m.quiet_shownChain ih _ _ _ _ _).bind fun _ => m.quiet_canReverse.bind fun _ => .pure _
      iterate 2
        split_ifs
        · exact (Quiet.throw (by simp)).bind fun _ => hunveiled _ _ (hinstance _ _)
        · exact (Quiet.throw (by simp)).bind fun _ => hinstance _ _
        · exact hunveiled _ _ (hinstance _ _)
        · exact hinstance _ _
      · split_ifs <;> simp [Quiet]
    · split_ifs <;> simp [Quiet]
    · split_ifs <;> simp [Quiet]
    · exact .ok _

lemma quiet_text (v : Value) : Quiet (m.text v) := m.quiet_textAt _ v

lemma quiet_attrs (v : Value) (slots : List Slot) : Quiet (Equality.attrs m v slots) := by
  induction slots with
  | nil => exact .ok _
  | cons s slots ih => exact (m.quiet_attr v s.attr).bind fun _ => ih.bind fun _ => .pure _

section

variable {self : Value → Value → Except Fault Value} (hself : ∀ v w, Quiet (self v w))

include hself

lemma quiet_pairs (vs ws : List Value) : Quiet (Equality.pairs m self vs ws) := by
  fun_induction Equality.pairs m self vs ws with
  | case1 => exact .ok _
  | case2 _ _ _ _ _ ih => exact ih
  | case3 v _ w _ _ ih =>
    refine (hself v w).bind fun answer => (m.quiet_truth answer).bind fun b => ?_
    cases b with
    | true => exact ih
    | false => exact .pure _
  | case4 => exact .ok _

lemma quiet_equalityChain (c : ChainBody) (n : Nat) (v w : Value) :
    Quiet (Equality.chain m self c n v w) := by
  induction n generalizing v w with
  | zero => simp [Quiet, Equality.chain]
  | succ n ih =>
    rw [Equality.chain]
    split_ifs
    · exact .ok _
    · refine (m.quiet_attrs v _).bind fun vs => (m.quiet_attrs w _).bind fun ws =>
        (m.quiet_pairs hself vs ws).bind fun same => ?_
      cases same with
      | true => exact (m.quiet_next c v).bind fun x => (m.quiet_next c w).bind fun y => ih x y
      | false => exact .pure _

end

lemma quiet_answer (v w : Value) : Quiet (Equality.answer m v w) := by
  unfold Equality.answer
  split
  · split
    · extract_lets compare
      have hcompare : ∀ u, Quiet (compare u) := by
        intro u
        refine (Quiet.forIn (fun v _ => ?_) _ PUnit.unit).bind fun _ => m.quiet_builtin _
        split_ifs
        · exact (m.quiet_attr v _).bind fun _ => .pure _
        · exact .pure _
      split_ifs
      · exact (Quiet.throw (by simp)).bind hcompare
      · exact hcompare ()
    · split
      · exact (m.quiet_call _ _ _).map
      · exact .ok _
  · split_ifs <;> simp [Quiet]

lemma quiet_different (v w : Value) : Quiet (Equality.different m v w) := by
  unfold Equality.different
  split
  refine (m.quiet_answer _ _).bind fun found => ?_
  split
  · exact .pure _
  · refine (m.quiet_answer _ _).bind fun found => ?_
    split <;> exact .pure _

lemma quiet_equalAt (n : Nat) (v w : Value) : Quiet (m.equalAt n v w) := by
  induction n generalizing v w with
  | zero => simp [Quiet, equalAt]
  | succ n ih =>
    rw [equalAt.eq_def]
    dsimp only
    split
    · split_ifs
      · exact (m.quiet_pairs ih _ _).map
      · exact .ok _
    · split_ifs
      · split
        · exact (m.quiet_equalityChain ih _ _ _ _).map
        · exact (m.quiet_pairs ih _ _).map
      · exact m.quiet_different _ _
    · exact m.quiet_different _ _
    · exact m.quiet_different _ _
    · split_ifs <;> simp [Quiet]

lemma quiet_equal (v w : Value) : Quiet (m.equal v w) := m.quiet_equalAt _ v w

lemma quiet_hashable (n : Nat) (v : Value) : Quiet (m.hashable n v) := by
  induction n generalizing v with
  | zero => simp [Quiet, hashable]
  | succ n ih =>
    rw [hashable.eq_def]
    dsimp only
    split
    · simp [Quiet]
    · simp [Quiet]
    · simp [Quiet]
    · split
      · exact .ok _
      · split_ifs <;> simp [Quiet]
      · exact (m.quiet_builtinCall _ _).bind fun _ => .forM (fun (f : String × Value) => ih f.2) _
      · simp [Quiet]
    · split_ifs <;> simp [Quiet]

lemma quiet_equalsInteger (n : Int) (v : Value) : Quiet (m.equalsInteger n v) :=
  (m.quiet_equal _ _).bind m.quiet_truth

lemma quiet_variantOf (e : EnumClass) (v : Value) : Quiet (m.variantOf e v) := by
  unfold variantOf
  extract_lets tell find
  have htell : ∀ found, Quiet (tell found) := by
    intro found
    cases found with
    | some variant => exact .pure variant
    | none => exact (m.quiet_text v).bind fun _ => .throw e.missing_ne_decode
  have hfind : ∀ u, Quiet (find u) := by
    intro u
    dsimp only [find]
    split
    · exact (e.quiet_search fun n => .ok _).bind htell
    · exact (e.quiet_search fun n => m.quiet_equalsInteger n v).bind htell
    · rename_i f _ hf
      refine (Quiet.throw fun d hd => ?_).bind htell
      exact m.quiet_hashable _ v d (hd ▸ hf)
  split
  · split_ifs
    · exact .pure _
    · exact hfind ()
  · exact hfind ()

lemma quiet_invoke (callee : Value) (args : List Value) (named : Fields) :
    Quiet (m.invoke callee args named) := by
  unfold invoke
  split
  · split
    · exact EnumClass.quiet_call (m.quiet_variantOf _) args named
    · exact m.quiet_construct _ args named
  · exact m.quiet_call _ args named

end Module

def Mention.Quiet : Mention → Prop
  | nothing f => ∀ g, f ≠ .decode g
  | _ => True

lemma Mention.quiet_call {make : ClassKey → List Value → Except Fault Value}
    (hmake : ∀ key args, Xdr.Quiet (make key args)) {mention : Mention} (h : mention.Quiet)
    (args : List Value) : Xdr.Quiet (mention.call make args) := by
  cases mention with
  | enum e => exact EnumClass.quiet_call e.quiet_member args []
  | cls key => exact hmake key args
  | nothing f => exact .throw h
  | variant e | other => simp [Xdr.Quiet, call]

lemma Globals.quiet_mention (g : Globals) (key : ClassKey) (name : String) :
    (g.mention key name).Quiet := by
  unfold mention
  split
  · rename_i f hf
    exact fun d hd => g.quiet_lookup _ d (hd ▸ hf)
  · split_ifs
    · cases g.enumOf? _ <;> trivial
    · trivial
  · cases g.enum? _ <;> trivial
  · trivial

namespace Unpack

variable {m : Module} {d : Decoder}

lemma quiet_wrap (hd : ∀ key args, Quiet (d.make key args)) {c : ChainBody}
    (hc : ∀ w ∈ c.wrappers, w.2.Quiet) (v : Value) : Quiet (wrap d c v) := by
  unfold wrap
  split
  · rename_i f hf
    obtain ⟨w, hw, hfound⟩ := exists_of_findSome?_eq_some hf
    have hquiet := hc w hw
    split at hfound
    · rename_i hnothing
      cases hfound
      rw [hnothing] at hquiet
      exact .throw hquiet
    · cases hfound
  · exact .foldrM c.wrappers (fun w hw inner => Mention.quiet_call hd (hc w hw) _) v

lemma quiet_select (disc : Value) {branches : List Branch}
    (h : ∀ b ∈ branches, ∀ label ∈ b.labels, Quiet label) : Quiet (select m disc branches) := by
  induction branches with
  | nil => exact .ok none
  | cons b rest ih =>
    obtain ⟨hb, hrest⟩ := forall_mem_cons.1 h
    refine (Quiet.anyM b.labels fun label hlabel => ?_).bind fun found => ?_
    · exact (hb label hlabel).bind fun w => (m.quiet_equal disc w).bind fun answer =>
        m.quiet_truth answer
    · cases found with
      | true => exact .pure _
      | false => exact ih hrest

lemma quiet_shown (disc : Value) : Quiet (shown m disc) := by
  unfold shown
  split_ifs
  · simp [Quiet]
  · exact .ok _
  · exact m.quiet_text disc

end Unpack

def Form.Quiet : Form → Prop
  | enum m => m.Quiet
  | cls m => m.Quiet
  | optional item => item.Quiet
  | fixedArray _ item => item.Quiet
  | array _ item => item.Quiet
  | _ => True

structure Branch.Quiet (b : Branch) : Prop where
  labels : ∀ label ∈ b.labels, Xdr.Quiet label
  target : Xdr.Quiet b.target

/-- What the forms of a body do not tell. -/
def Body.Quiet : Body → Prop
  | .chain c => ∀ w ∈ c.wrappers, w.2.Quiet
  | .union u => ∀ b ∈ u.branches ++ u.fallback.toList, b.Quiet
  | _ => True

lemma Schema.form_quiet (s : Schema) {mention : String → Mention} (h : ∀ name, (mention name).Quiet)
    (shape : Shape) : (s.form mention shape).Quiet := by
  have helement : ∀ base, (s.elementForm mention base).Quiet := by
    intro base
    unfold elementForm
    split
    · trivial
    · split <;> exact h _
  unfold form
  dsimp only
  split
  · trivial
  · trivial
  · trivial
  · exact helement _
  · exact helement _
  · exact helement _
  · exact helement _

namespace Linker

variable (l : Linker)

lemma quiet_form (key : ClassKey) (shape : Shape) : (l.form key shape).Quiet :=
  l.schema.form_quiet (l.globals.quiet_mention key) shape

lemma exists_arm {l : Linker} {t : TypeInfo} {p : UnionPlan} {b : Branch} {u : UnionBody}
    (hu : l.unionBody t p = .union u) (h : b ∈ u.branches ++ u.fallback.toList) :
    ∃ a ∈ p.arms, b = l.branch t p a := by
  cases hu
  rcases mem_append.1 h with h | h
  · obtain ⟨a, ha, rfl⟩ := mem_map.1 h
    exact ⟨a, mem_of_mem_filter ha, rfl⟩
  · obtain ⟨a, ha, rfl⟩ := Option.map_eq_some_iff.1 (Option.mem_toList.1 h)
    exact ⟨a, mem_of_find?_eq_some ha, rfl⟩

lemma quiet_branch (t : TypeInfo) (p : UnionPlan) (a : ArmPlan) : (l.branch t p a).Quiet where
  labels label hlabel := by
    obtain ⟨n, -, rfl⟩ := mem_map.1 hlabel
    exact l.globals.quiet_label _ p n
  target := (l.globals.quiet_lookup _).bind fun v => l.globals.quiet_attr v _

lemma quiet_structBody (d : StructType) : (l.structBody d).Quiet := by
  unfold structBody
  dsimp only
  cases l.schema.chain? d with
  | none => trivial
  | some c =>
    intro w hw
    obtain ⟨name, -, rfl⟩ := mem_map.1 hw
    exact l.globals.quiet_mention _ name

lemma quiet_of_mem_bodies {l : Linker} {t : TypeInfo} {entry : ClassKey × Option Nat × Body}
    (h : entry ∈ l.bodies t) : entry.2.2.Quiet := by
  unfold bodies at h
  dsimp only at h
  split at h
  · cases h
  · rw [mem_singleton.1 h]
    exact l.quiet_structBody _
  · rw [mem_singleton.1 h]
    trivial
  · split at h
    · cases h
    · rcases mem_cons.1 h with rfl | h
      · intro b hb
        obtain ⟨a, -, rfl⟩ := exists_arm rfl hb
        exact l.quiet_branch t _ a
      · obtain ⟨a, -, rfl⟩ := mem_map.1 h
        trivial

end Linker

end Xdr
