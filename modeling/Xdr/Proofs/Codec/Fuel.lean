import Xdr.Proofs.Module.Binding
import Xdr.Codec.Unpack

/-!
# Orderly decoding by levels

Whatever the names of a module come to stand for, its classes decode from the front on: the only
reader that may go back is one for a negative number of bytes, and no declaration has such a number.
-/

namespace Xdr

open Unpack List

variable {c : ChainBody} {m : Module} {b : Branch} {form : Form} {slots : List Slot}

def Form.Forward : Form → Prop
  | fixedOpaque n => 0 ≤ n
  | optional item => item.Forward
  | fixedArray _ item => item.Forward
  | array _ item => item.Forward
  | _ => True

lemma Schema.elementForm_forward (s : Schema) (mention : String → Mention) (b : Base) :
    (s.elementForm mention b).Forward := by
  unfold elementForm
  split
  · trivial
  · split <;> trivial

lemma Schema.form_forward (s : Schema) (mention : String → Mention) (shape : Shape) :
    (s.form mention shape).Forward := by
  have helement := s.elementForm_forward mention
  unfold form
  dsimp only
  split
  · exact Int.natCast_nonneg shape.count
  · trivial
  · trivial
  · exact helement _
  · exact helement _
  · exact helement _
  · exact helement _

/-- The forms by which the instances of a class are read. -/
def Body.forms : Body → List Form
  | .record slots => slots.map (·.form)
  | .chain c => (c.before ++ c.behind).map (·.form)
  | .union u => u.disc :: (u.branches ++ u.fallback.toList).filterMap (·.payload)
  | .arm _ => []

lemma Body.forall_chain {P : Form → Prop} {c : ChainBody} :
    (∀ form ∈ (Body.chain c).forms, P form) ↔
      (∀ x ∈ c.before, P x.form) ∧ ∀ x ∈ c.behind, P x.form := by
  rw [forms, forall_mem_map, forall_mem_append]

lemma Body.forall_union {P : Form → Prop} {u : UnionBody} :
    (∀ form ∈ (Body.union u).forms, P form) ↔
      P u.disc ∧ ∀ b ∈ u.branches ++ u.fallback.toList, ∀ form ∈ b.payload, P form := by
  rw [forms, forall_mem_cons]
  refine and_congr_right fun _ => ⟨fun h b hb form hform => ?_, fun h form hform => ?_⟩
  · exact h form (mem_filterMap.2 ⟨b, hb, hform⟩)
  · obtain ⟨b, hb, hform⟩ := mem_filterMap.1 hform
    exact h b hb form hform

def Body.Forward (b : Body) : Prop := ∀ form ∈ b.forms, form.Forward

/-- The class that reads the instances of a class. -/
def ClassKey.reader : ClassKey → ClassKey
  | .arm union _ => .type union
  | key => key

lemma Unpack.own_eq (m : Module) (d : Decoder) (n : Nat) (key : ClassKey) :
    own m d n key = if !(m.head? key.reader).all (·.isReadable) then throw .notApplicable
      else
        match m.body? key.reader with
        | some (.record s) => do settle (d.make key.reader (← values d s))
        | some (.chain c) => chain m d n key.reader c
        | some (.union u) => union m d u
        | some (.arm _) => throw .notApplicable
        | none => throw .unimplemented := by
  cases key <;> rfl

lemma Unpack.settle_ok_bind {α β : Type} (a : α) (f : α → Read β) : settle (.ok a) >>= f = f a := rfl

lemma Unpack.mem_of_select {disc : Value} {branches : List Branch}
    (h : select m disc branches = .ok (some b)) : b ∈ branches := by
  induction branches with
  | nil => cases h
  | cons first rest ih =>
    obtain ⟨found, -, h⟩ := bind_ok h
    split_ifs at h
    · cases h
      exact .head _
    · exact .tail first (ih h)

section

variable {d : Decoder} (hd : ∀ key, Orderly (d.unpack key))

lemma Orderly.settle {α : Type} (x : Except Fault α) : Orderly (settle x) := by
  cases x with
  | ok a => exact .pure a
  | error f => exact .throw f

lemma Orderly.lift (x : Except Fault Value) : Orderly (liftM x : Read Value) := by
  cases x with
  | ok a => exact .pure a
  | error f => exact .throw f

lemma Orderly.readVariant (d : Decoder) (m : Mention) : Orderly (m.readVariant d) := by
  cases m with
  | enum e => exact .enum e
  | nothing f => exact .throw f
  | _ => exact (Steady.signedWord (by decide)).toOrderly.bind fun n => .lift _

include hd

lemma Orderly.readInstance (m : Mention) : Orderly (m.readInstance d) := by
  cases m with
  | enum e | variant e => exact .enum e
  | cls key => exact hd key
  | other => exact .throw _
  | nothing f => exact .throw f

lemma Orderly.read (h : form.Forward) : Orderly (form.read d) := by
  induction form with
  | scalar b => exact .scalar b
  | enum m => exact .readVariant d m
  | cls m => exact .readInstance hd m
  | length bound => exact (Steady.length bound).toOrderly.bind fun _ => .pure _
  | fixedOpaque n =>
    obtain ⟨k, rfl⟩ := Int.eq_ofNat_of_zero_le h
    exact (Steady.fixedOpaque d.strict k).toOrderly.bind fun _ => .pure _
  | varOpaque bound => exact (Steady.varOpaque d.strict bound).toOrderly.bind fun _ => .pure _
  | string bound => exact (Steady.string d.strict bound).toOrderly.bind fun _ => .pure _
  | flag => exact Steady.flag.toOrderly.bind fun _ => .pure _
  | optional item ih => exact (ih h).optional
  | fixedArray n item ih => exact (ih h).fixedArray n
  | array bound item ih => exact (ih h).array bound

lemma Orderly.values (h : ∀ x ∈ slots, x.form.Forward) :
    Orderly (values d slots) := by
  induction slots with
  | nil => exact .pure _
  | cons x rest ih =>
    obtain ⟨hx, hrest⟩ := forall_mem_cons.1 h
    exact (Orderly.read hd hx).bind fun v => (ih hrest).bind fun vs => .pure _

lemma Orderly.heads (h : ∀ x ∈ c.before, x.form.Forward) (n : Nat) (done : List (List Value)) :
    Orderly (heads d c n done) := by
  induction n generalizing done with
  | zero => exact .throw _
  | succ n ih =>
    refine (Orderly.values hd h).bind fun head => Steady.flag.toOrderly.bind fun more => ?_
    cases more with
    | true => exact ih (head :: done)
    | false => exact .pure _

lemma Orderly.nodes (h : ∀ x ∈ c.behind, x.form.Forward) (key : ClassKey)
    (found : List (List Value)) (next : Value) : Orderly (nodes d key c found next) := by
  induction found generalizing next with
  | nil => exact .pure next
  | cons head rest ih =>
    exact (Orderly.settle _).bind fun link => (Orderly.values hd h).bind fun tail =>
      (Orderly.settle _).bind ih

lemma Orderly.build (m : Module) (h : ∀ form ∈ b.payload, form.Forward) (disc : Value) :
    Orderly (build m d b disc) := by
  refine (Orderly.settle b.target).bind fun target => ?_
  cases hpayload : b.payload with
  | none => exact .settle _
  | some form => exact (Orderly.read hd (h form hpayload)).bind fun v => .settle _

lemma Orderly.union (m : Module) {u : UnionBody} (h : (Body.union u).Forward) :
    Orderly (union m d u) := by
  obtain ⟨hdisc, hbranch⟩ := Body.forall_union.1 h
  refine (Orderly.read hd hdisc).bind fun disc => ?_
  cases hselect : select m disc u.branches with
  | error f => exact .throw f
  | ok selected =>
    rw [settle_ok_bind]
    cases selected with
    | some b => exact .build hd m (hbranch b (mem_append_left _ (mem_of_select hselect))) disc
    | none =>
      cases hdefault : u.fallback with
      | some b => exact .build hd m (hbranch b (by simp [hdefault])) disc
      | none => exact .offset fun start => (Orderly.settle _).bind fun text => .throw _

lemma Orderly.own (m : Module) (n : Nat) {key : ClassKey}
    (h : ∀ b, m.body? key.reader = some b → b.Forward) : Orderly (own m d n key) := by
  rw [own_eq]
  split_ifs
  · exact .throw _
  · cases hbody : m.body? key.reader with
    | none => exact .throw _
    | some b =>
      have hb := h b hbody
      cases b with
      | record slots =>
        exact (Orderly.values hd (forall_mem_map.1 hb)).bind fun vs => .settle _
      | chain c =>
        obtain ⟨hbefore, hbehind⟩ := Body.forall_chain.1 hb
        exact (Orderly.heads hd hbefore n []).bind fun found => (Orderly.settle _).bind fun _ =>
          .nodes hd hbehind _ found .null
      | union u => exact .union hd m hb
      | arm a => exact .throw _

end

lemma Orderly.unpack (h : ∀ key b, m.body? key = some b → b.Forward) (strict : Bool) (n : Nat)
    (key : ClassKey) : Orderly (m.unpack strict n key) := by
  induction n generalizing key with
  | zero => exact .throw _
  | succ n ih => exact .own ih m (n + 1) (h key.reader)

/-! ## Levels of decoding -/

variable {n n' size : Nat} {j : Input} {key : ClassKey} {c : ChainBody}

def Agrees {α : Type} (E : Fault → Prop) (r r' : Read α) (i : Input) : Prop :=
  (∀ f j, r i = (.error f, j) → ¬ E f) → r' i = r i

def Input.Past (i : Input) (n : Nat) (j : Input) : Prop :=
  ∃ bs, i.Goes bs j ∧ 4 ∣ bs.length ∧ n ≤ bs.length

namespace Input.Past

variable {i j k : Input} {n : Nat}

lemma refl (i : Input) : i.Past 0 i := ⟨[], .refl i, by simp, by simp⟩

lemma front (h : i.Past n j) (hi : 0 ≤ i.offset) : 0 ≤ j.offset := by
  obtain ⟨bs, hbs, -, -⟩ := h
  exact hbs.front hi

lemma step (h : i.Past n j) {cs : List UInt8} (hcs : j.Goes cs k) (hdvd : 4 ∣ cs.length) :
    i.Past (n + cs.length) k := by
  obtain ⟨bs, hbs, hdvd', hn⟩ := h
  refine ⟨bs ++ cs, hbs.trans hcs, ?_, ?_⟩
  · rw [length_append]
    exact Nat.dvd_add hdvd' hdvd
  · rw [length_append]
    omega

lemma mono (h : i.Past n j) (hn : n' ≤ n) : i.Past n' j := by
  obtain ⟨bs, hbs, hdvd, hle⟩ := h
  exact ⟨bs, hbs, hdvd, hn.trans hle⟩

lemma trans (h : i.Past n j) (h' : j.Past n' k) : i.Past (n + n') k := by
  obtain ⟨bs, hbs, hdvd, hle⟩ := h'
  exact (h.step hbs hdvd).mono (Nat.add_le_add_left hle n)

lemma length (h : i.Past n j) : j.rest.length + n ≤ i.rest.length := by
  obtain ⟨bs, hbs, -, hn⟩ := h
  have hlength := hbs.length
  omega

lemma zero_cases (h : i.Past 0 j) : j = i ∨ i.Past 4 j := by
  obtain ⟨bs, hbs, hdvd, -⟩ := h
  by_cases hnil : bs = []
  · subst hnil
    obtain ⟨data, rest, offset⟩ := hbs
    cases i
    cases j
    simp_all
  · have hpos : 0 < bs.length := length_pos_iff.2 hnil
    exact .inr ⟨bs, hbs, hdvd, Nat.le_of_dvd hpos hdvd⟩

end Input.Past

section

variable {α β : Type} {E : Fault → Prop} {i j : Input} {n : Nat}

lemma Agrees.refl (r : Read α) (i : Input) : Agrees E r r i := fun _ => rfl

lemma Agrees.bind {x x' : Read α} {f f' : α → Read β} (hx : Agrees E x x' i)
    (hf : ∀ a j, x i = (.ok a, j) → Agrees E (f a) (f' a) j) : Agrees E (x >>= f) (x' >>= f') i := by
  intro h
  have hsame : x' i = x i := hx fun g j hrun => h g j (run_bind_of_error hrun)
  cases hrun : x i with
  | mk r j =>
    rw [hrun] at hsame
    cases r with
    | ok a =>
      rw [run_bind_of_ok hrun] at h ⊢
      rw [run_bind_of_ok hsame]
      exact hf a j hrun h
    | error g => rw [run_bind_of_error hrun, run_bind_of_error hsame]

lemma Agrees.bind_right {x : Read α} {f f' : α → Read β}
    (hf : ∀ a j, x i = (.ok a, j) → Agrees E (f a) (f' a) j) : Agrees E (x >>= f) (x >>= f') i :=
  (Agrees.refl x i).bind hf

lemma Agrees.bind_left {x x' : Read α} (f : α → Read β) (hx : Agrees E x x' i) :
    Agrees E (x >>= f) (x' >>= f) i :=
  hx.bind fun a j _ => .refl (f a) j

lemma Orderly.past {r : Read α} (hr : Orderly r) (hi : 0 ≤ i.offset) (hj : i.Past n j) {a : α}
    {k : Input} (hrun : r j = (.ok a, k)) : i.Past n k := by
  obtain ⟨bs, hbs, hdvd⟩ := hr.words (hj.front hi) hrun
  exact (hj.step hbs hdvd).mono (Nat.le_add_right _ _)

lemma Takes.past {strict : Bool} {r : Read α} {P : Cells → α → Prop} (h : Takes strict r P)
    (hP : ∀ c a, P c a → c.length = 4) (hi : 0 ≤ i.offset) (hj : i.Past n j) {a : α} {k : Input}
    (hrun : r j = (.ok a, k)) : i.Past (n + 4) k := by
  obtain ⟨data, rest, offset⟩ := j
  obtain ⟨o, rfl⟩ := Int.eq_ofNat_of_zero_le (hj.front hi)
  obtain ⟨cells, bs, tail, hfits, rfl, rfl, hcells⟩ := h data rest o a k hrun
  have hlength : bs.length = 4 := hfits.length_eq.trans (hP cells a hcells)
  have hgoes : Input.Goes ⟨data, bs ++ tail, o⟩ bs ⟨data, tail, (o + bs.length : Nat)⟩ :=
    ⟨rfl, rfl, by simp⟩
  refine (hj.step hgoes (by rw [hlength])).mono ?_
  rw [hlength]

lemma past_of_flag (hi : 0 ≤ i.offset) (hj : i.Past n j) {b : Bool} {k : Input}
    (hrun : Read.flag j = (.ok b, k)) : i.Past (n + 4) k := by
  have htakes : Takes false Read.flag _ := takes_flag
  refine htakes.past ?_ hi hj hrun
  rintro cells b rfl
  exact Cells.length_word _

lemma past_of_length {bound : Option Int} (hi : 0 ≤ i.offset) (hj : i.Past n j) {m : Nat} {k : Input}
    (hrun : Read.length bound j = (.ok m, k)) : i.Past (n + 4) k := by
  have htakes : Takes false (Read.length bound) _ := takes_length bound
  refine htakes.past ?_ hi hj hrun
  rintro cells m ⟨-, rfl⟩
  exact Cells.length_word m

end

/-- Numbers of nodes that are the same to a list of that many bytes. -/
structure Covers (E : Fault → Prop) (size n n' : Nat) : Prop where
  left : E .tooDeep ∨ size < 4 * n
  right : E .tooDeep ∧ n ≤ n' ∨ size < 4 * n'

def Body.Holds (b : Body) (key : ClassKey) : Prop := ∃ form ∈ b.forms, form.held = some key

/-- Whatever a form holds is read alike by both, from so many bytes on. -/
def Form.Alike (E : Fault → Prop) (d : Decoder) (u : ClassKey → Read Value) (i : Input) (n : Nat)
    (form : Form) : Prop :=
  form.Forward ∧
    ∀ key, form.held = some key → ∀ j, i.Past n j → Agrees E (d.unpack key) (u key) j

section

variable {E : Fault → Prop} {d : Decoder} (hd : ∀ key, Orderly (d.unpack key))
  {u : ClassKey → Read Value} {i : Input} (hi : 0 ≤ i.offset)
  (hlater : ∀ key j, i.Past 4 j → Agrees E (d.unpack key) (u key) j)

include hi in
lemma Agrees.repeated {item item' : Read Value} (hitem : Orderly item)
    (h : ∀ j, i.Past n j → Agrees E item item' j) (count : Nat) (done : List Value)
    (hj : i.Past n j) :
    Agrees E (Read.repeated item count done) (Read.repeated item' count done) j := by
  induction count generalizing done j with
  | zero => exact .refl _ j
  | succ count ih => exact (h j hj).bind fun v k hrun => ih (v :: done) (hitem.past hi hj hrun)

include hd hi hlater

lemma Agrees.read (h : form.Alike E d u i n) (hj : i.Past n j) :
    Agrees E (form.read d) (form.read { d with unpack := u }) j := by
  obtain ⟨hform, hheld⟩ := h
  induction form generalizing n j with
  | cls m =>
    cases m with
    | cls key => exact hheld key rfl j hj
    | _ => exact .refl _ j
  | optional item ih =>
    refine .bind_right fun b k hrun => ?_
    cases b with
    | true =>
      have hk := (past_of_flag hi hj hrun).mono (Nat.le_add_left 4 n)
      exact ih hk hform fun key _ => hlater key
    | false => exact .refl _ k
  | fixedArray count item ih =>
    have hitem : Orderly (item.read d) := .read hd hform
    exact .bind_left _ (.repeated hi hitem (fun k hk => ih hk hform hheld) _ [] hj)
  | array bound item ih =>
    refine .bind_right fun count k hrun => ?_
    have hk := (past_of_length hi hj hrun).mono (Nat.le_add_left 4 n)
    have hitem : Orderly (item.read d) := .read hd hform
    exact .bind_left _
      (.repeated hi hitem (fun l hl => ih hl hform fun key _ => hlater key) _ [] hk)
  | _ => exact .refl _ j

lemma Agrees.values (h : ∀ x ∈ slots, x.form.Alike E d u i n)
    (hj : i.Past n j) : Agrees E (values d slots) (values { d with unpack := u } slots) j := by
  induction slots generalizing j with
  | nil => exact .refl _ j
  | cons x rest ih =>
    obtain ⟨hx, hrest⟩ := forall_mem_cons.1 h
    refine (Agrees.read hd hi hlater hx hj).bind fun v k hrun => ?_
    exact .bind_left _ (ih hrest ((Orderly.read hd hx.1).past hi hj hrun))

lemma Agrees.heads (h : ∀ x ∈ c.before, x.form.Alike E d u i size) (done : List (List Value))
    (hj : i.Past size j) (hn : Covers E j.rest.length n n') :
    Agrees E (heads d c n done) (heads { d with unpack := u } c n' done) j := by
  induction n generalizing n' size done j with
  | zero =>
    rcases hn.left with hE | hsize
    · intro hfree
      exact absurd hE (hfree _ j rfl)
    · omega
  | succ n ih =>
    cases n' with
    | zero =>
      rcases hn.right with ⟨-, hle⟩ | hsize
      · omega
      · omega
    | succ n' =>
      have hvalues := Orderly.values hd fun x hx => (h x hx).1
      refine (Agrees.values hd hi hlater h hj).bind fun head k hhead => ?_
      have hk := hvalues.past hi hj hhead
      have hkj := hvalues.past (hj.front hi) (.refl j) hhead
      refine .bind_right fun more l hflag => ?_
      cases more with
      | false => exact .refl _ l
      | true =>
        have hl := (past_of_flag hi hk hflag).mono (Nat.le_add_left 4 size)
        have hlength := (past_of_flag (hj.front hi) hkj hflag).length
        refine ih (fun x hx => ⟨(h x hx).1, fun key _ => hlater key⟩) (head :: done) hl ⟨?_, ?_⟩
        · rcases hn.left with hE | hsize
          · exact .inl hE
          · exact .inr (by omega)
        · rcases hn.right with ⟨hE, hle⟩ | hsize
          · exact .inl ⟨hE, by omega⟩
          · exact .inr (by omega)

lemma Agrees.nodes (h : ∀ x ∈ c.behind, x.form.Alike E d u i n) (key : ClassKey)
    (found : List (List Value)) (next : Value) (hj : i.Past n j) :
    Agrees E (nodes d key c found next) (nodes { d with unpack := u } key c found next) j := by
  induction found generalizing next j with
  | nil => exact .refl _ j
  | cons head rest ih =>
    refine .bind_right fun link k hlink => ?_
    have hk := (Orderly.settle _).past hi hj hlink
    refine (Agrees.values hd hi hlater h hk).bind fun tail l htail => ?_
    have hl := (Orderly.values hd fun x hx => (h x hx).1).past hi hk htail
    refine .bind_right fun node o hnode => ?_
    exact ih node ((Orderly.settle _).past hi hl hnode)

lemma Agrees.build (m : Module) {b : Branch} (h : ∀ form ∈ b.payload, form.Alike E d u i n)
    (disc : Value) (hj : i.Past n j) :
    Agrees E (build m d b disc) (build m { d with unpack := u } b disc) j := by
  refine .bind_right fun target k htarget => ?_
  have hk := (Orderly.settle _).past hi hj htarget
  cases hpayload : b.payload with
  | none => exact .refl _ k
  | some form =>
    exact .bind_left _ (.read hd hi hlater (h form hpayload) hk)

lemma Agrees.union (m : Module) {b : UnionBody}
    (h : ∀ form ∈ (Body.union b).forms, form.Alike E d u i n) (hj : i.Past n j) :
    Agrees E (union m d b) (union m { d with unpack := u } b) j := by
  obtain ⟨hdisc, hbranch⟩ := Body.forall_union.1 h
  refine (Agrees.read hd hi hlater hdisc hj).bind fun disc k hrun => ?_
  have hk := (Orderly.read hd hdisc.1).past hi hj hrun
  cases hselect : select m disc b.branches with
  | error f => exact .refl _ k
  | ok selected =>
    rw [settle_ok_bind, settle_ok_bind]
    cases selected with
    | some x =>
      have hx : x ∈ b.branches ++ b.fallback.toList := mem_append_left _ (mem_of_select hselect)
      exact .build hd hi hlater m (hbranch x hx) disc hk
    | none =>
      cases hdefault : b.fallback with
      | none => exact .refl _ k
      | some x => exact .build hd hi hlater m (hbranch x (by simp [hdefault])) disc hk

lemma Agrees.own (m : Module) (hforward : ∀ b, m.body? key.reader = some b → b.Forward)
    (hheld : ∀ b, m.body? key.reader = some b → ∀ other, b.Holds other →
      Agrees E (d.unpack other) (u other) i) (hn : Covers E i.rest.length n n') :
    Agrees E (own m d n key) (own m { d with unpack := u } n' key) i := by
  rw [own_eq, own_eq]
  split_ifs
  · exact .refl _ i
  · cases hbody : m.body? key.reader with
    | none => exact .refl _ i
    | some b =>
      have halike : ∀ form ∈ b.forms, form.Alike E d u i 0 := by
        refine fun form hform => ⟨hforward b hbody form hform, fun other hother j hj => ?_⟩
        rcases hj.zero_cases with rfl | hj
        · exact hheld b hbody other ⟨form, hform, hother⟩
        · exact hlater other j hj
      cases b with
      | record slots =>
        exact .bind_left _ (.values hd hi hlater (forall_mem_map.1 halike) (.refl i))
      | chain c =>
        obtain ⟨hbefore, hbehind⟩ := Body.forall_chain.1 halike
        refine (Agrees.heads hd hi hlater hbefore [] (.refl i) hn).bind fun found j hfound => ?_
        have hheads := Orderly.heads hd (fun x hx => (hbefore x hx).1) n []
        have hj := hheads.past hi (.refl i) hfound
        refine .bind_right fun _ k hreverse => ?_
        exact .nodes hd hi hlater hbehind _ found .null ((Orderly.settle _).past hi hj hreverse)
      | union b => exact .union hd hi hlater m halike (.refl i)
      | arm a => exact .refl _ i

end

structure Module.Tame (m : Module) (names : List String) : Prop where
  forward : ∀ key b, m.body? key = some b → b.Forward
  named : ∀ key b, m.body? (ClassKey.reader key) = some b → ∃ name ∈ names, key.reader = .type name
  ranks : m.ranks = names.length + 1

lemma Module.unpack_reader (m : Module) (strict : Bool) (n : Nat) (key : ClassKey) :
    m.unpack strict n key.reader = m.unpack strict n key := by
  cases n with
  | zero => rfl
  | succ n =>
    rw [unpack, unpack, own_eq, own_eq]
    cases key <;> rfl

namespace Module.Tame

variable {m : Module} {names : List String} (hm : m.Tame names) (strict : Bool)

include hm

lemma orderly (n : Nat) (key : ClassKey) : Orderly (m.unpack strict n key) :=
  .unpack hm.forward strict n key

lemma unpack_succ (n : Nat) (key : ClassKey) {i : Input} (hi : 0 ≤ i.offset) :
    Agrees (· = .tooDeep) (m.unpack strict n key) (m.unpack strict (n + 1) key) i := by
  induction n generalizing key i with
  | zero =>
    intro h
    exact absurd rfl (h _ i rfl)
  | succ n ih =>
    refine Agrees.own (hm.orderly strict n) hi (fun other j hj => ?_) m (hm.forward key.reader)
      (fun b _ other _ => ?_) ⟨.inl rfl, .inl ⟨rfl, Nat.le_succ _⟩⟩
    · exact ih other (hj.front hi)
    · exact ih other hi

lemma unpack_deep_of_succ {i : Input} (hi : 0 ≤ i.offset)
    (h : ∃ j, m.unpack strict (n + 1) key i = (.error .tooDeep, j)) :
    ∃ j, m.unpack strict n key i = (.error .tooDeep, j) := by
  by_contra hends
  have hsame := hm.unpack_succ strict n key hi fun f j hrun heq => hends ⟨j, heq ▸ hrun⟩
  rw [hsame] at h
  exact hends h

lemma unpack_agrees (n : Nat) (key : ClassKey) {i : Input} (hi : 0 ≤ i.offset)
    {visited : List String} (hnodup : visited.Nodup) (hvisited : visited ⊆ names)
    (hdeep : ∀ x ∈ visited, ∃ j, m.unpack strict n (.type x) i = (.error .tooDeep, j)) {l : Nat}
    (hl : m.ranks * (i.rest.length / 4) + (m.ranks - visited.length) ≤ l) :
    Agrees (· = .tooDeep) (m.unpack strict n key) (m.unpack strict l key) i := by
  induction n generalizing key i visited l with
  | zero =>
    intro h
    exact absurd rfl (h _ i rfl)
  | succ n ih =>
    have hranks := hm.ranks
    have hfewer : visited.length ≤ names.length := (hnodup.subperm hvisited).length_le
    have hdeep' : ∀ x ∈ visited, ∃ j, m.unpack strict n (.type x) i = (.error .tooDeep, j) :=
      fun x hx => hm.unpack_deep_of_succ strict hi (hdeep x hx)
    by_cases hkey : ∃ j, m.unpack strict n key i = (.error .tooDeep, j)
    · by_cases hends : ∃ j, m.unpack strict (n + 1) key i = (.error .tooDeep, j)
      · obtain ⟨j, hj⟩ := hends
        intro h
        exact absurd rfl (h _ j hj)
      obtain ⟨l, rfl⟩ : ∃ l', l = l' + 1 := ⟨l - 1, by omega⟩
      have hwords : i.rest.length / 4 ≤ m.ranks * (i.rest.length / 4) :=
        Nat.le_mul_of_pos_left _ (by omega)
      refine Agrees.own (hm.orderly strict n) hi (fun other j hj => ?_) m (hm.forward key.reader)
        (fun b hb other _ => ?_) ⟨.inl rfl, .inr (by omega)⟩
      · -- behind the place, a word is taken, which pays for all types
        have hlength := hj.length
        have hword : j.rest.length / 4 + 1 ≤ i.rest.length / 4 := by omega
        have hmul := Nat.mul_le_mul_left m.ranks hword
        rw [Nat.mul_add] at hmul
        exact ih other (hj.front hi) nodup_nil (nil_subset _) (by simp)
          (by rw [length_nil]; omega)
      · -- at the same place, the class itself is not met again
        obtain ⟨x, hx, hreader⟩ := hm.named key b hb
        have hnew : x ∉ visited := by
          intro hmem
          obtain ⟨j, hj⟩ := hdeep x hmem
          rw [← hreader, m.unpack_reader] at hj
          exact hends ⟨j, hj⟩
        have hx' : ∃ j, m.unpack strict n (.type x) i = (.error .tooDeep, j) := by
          rwa [← hreader, m.unpack_reader]
        refine ih other hi (nodup_cons.2 ⟨hnew, hnodup⟩)
          (cons_subset.2 ⟨hx, hvisited⟩) (forall_mem_cons.2 ⟨hx', hdeep'⟩) ?_
        rw [length_cons]
        omega
    · have hsame := hm.unpack_succ strict n key hi fun f j hrun heq => hkey ⟨j, heq ▸ hrun⟩
      intro hends
      rw [hsame]
      exact ih key hi hnodup hvisited hdeep' hl fun f j hrun heq => hkey ⟨j, heq ▸ hrun⟩

lemma unpack_levels {i : Input} (hi : 0 ≤ i.offset)
    (hends : ∀ j, m.unpack strict n key i ≠ (.error .tooDeep, j)) (hsize : i.rest.length ≤ size) :
    m.unpack strict (m.levels size) key i = m.unpack strict n key i := by
  have hmul := Nat.mul_le_mul_left m.ranks (Nat.div_le_div_right hsize : i.rest.length / 4 ≤ size / 4)
  have hlevels : m.ranks * (i.rest.length / 4) + (m.ranks - ([] : List String).length) ≤
      m.levels size := by
    rw [levels, Nat.mul_add, length_nil]
    omega
  exact hm.unpack_agrees strict n key hi nodup_nil (nil_subset _) (by simp) hlevels
    fun f j hrun heq => hends j (heq ▸ hrun)

end Module.Tame

end Xdr
