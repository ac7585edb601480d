import Xdr.Proofs.Codec.Fuel
import Xdr.Proofs.Wire.Pointing

/-!
# Faults that point, and padding

A class decodes by the readers of the wire format, and what it does with values is never for the
bytes.
-/

namespace Xdr

open Unpack

variable {P : EnumClass → Prop} {c : ChainBody} {m : Mention} {form : Form} {key : ClassKey}
  {slots : List Slot} {u : UnionBody}

/-- The enum that reads the numbers of a mention. -/
def Mention.enum? : Mention → Option EnumClass
  | enum e => some e
  | variant e => some e
  | _ => none

def Form.Names (P : EnumClass → Prop) : Form → Prop
  | enum m => ∀ e ∈ m.enum?, P e
  | cls m => ∀ e ∈ m.enum?, P e
  | optional item => item.Names P
  | fixedArray _ item => item.Names P
  | array _ item => item.Names P
  | _ => True

/-- A form that reads from the front on and tells the truth about what it names. -/
structure Form.Fair (b : Blame) (form : Form) : Prop where
  forward : form.Forward
  quiet : form.Quiet
  names : form.Names b.enum

def Body.Blames (m : Module) (b : Blame) : Body → Prop
  | .union u => ∀ d i v j, i.Stands → u.disc.read d i = (.ok v, j) →
      select m v u.branches = .ok none → u.fallback = none →
      b.union i.data u.name (v.wholeNumber?.getD 0) (j.offset - u.discSize)
  | _ => True

structure Body.Fair (m : Module) (b : Blame) (body : Body) : Prop where
  forms : ∀ form ∈ body.forms, form.Fair b
  quiet : body.Quiet
  blames : body.Blames m b

lemma Form.names_of_forall (h : ∀ e, P e) (form : Form) : form.Names P := by
  induction form with
  | enum m | cls m => exact fun e _ => h e
  | optional item ih | fixedArray n item ih | array bound item ih => exact ih
  | _ => trivial

/-- The decoder's classes point, and it looks at padding only where that may be blamed. -/
structure Decoder.Points (d : Decoder) (b : Blame) : Prop where
  strict : d.strict = true → b.strict = true
  quiet : ∀ key args, Quiet (d.make key args)
  unpack : ∀ key i, Pointing b (d.unpack key) i

namespace Pointing

variable {b : Blame} {d : Decoder} (hd : d.Points b)

include hd

lemma readVariant (hquiet : m.Quiet) (henum : ∀ e ∈ m.enum?, b.enum e) (i : Input) :
    Pointing b (m.readVariant d) i := by
  have hlift : ∀ n j, Pointing b (liftM (m.call d.make [.int n]) : Read Value) j := by
    intro n j
    have hcall := Mention.quiet_call hd.quiet hquiet [.int n]
    cases hfound : m.call d.make [.int n] with
    | ok v => exact .pure v
    | error g => exact .throw fun f hf => hcall f (hf ▸ hfound)
  cases m with
  | enum e => exact .enum (henum e rfl)
  | nothing f => exact .throw hquiet
  | _ => exact signedWord_bind fun n j _ _ _ => hlift n j

lemma readInstance (hquiet : m.Quiet) (henum : ∀ e ∈ m.enum?, b.enum e) (i : Input) :
    Pointing b (m.readInstance d) i := by
  cases m with
  | enum e | variant e => exact .enum (henum e rfl)
  | cls key => exact hd.unpack key i
  | other => exact .throw (by simp)
  | nothing f => exact .throw hquiet

omit hd in
lemma repeated {item : Read Value} (h : ∀ i, Pointing b item i) (n : Nat) (done : List Value)
    (i : Input) : Pointing b (Read.repeated item n done) i := by
  induction n generalizing done i with
  | zero => exact .pure _
  | succ n ih => exact (h i).bind fun v j _ _ _ _ => ih (v :: done) j

lemma read (h : form.Fair b) (i : Input) : Pointing b (form.read d) i := by
  induction form generalizing i with
  | scalar t => exact .scalar t
  | enum m => exact readVariant hd h.quiet h.names i
  | cls m => exact readInstance hd h.quiet h.names i
  | length bound => exact (length bound).bind fun _ _ _ _ _ _ => .pure _
  | fixedOpaque n =>
    obtain ⟨k, rfl⟩ := Int.eq_ofNat_of_zero_le h.forward
    exact (fixedOpaque hd.strict k).bind fun _ _ _ _ _ _ => .pure _
  | varOpaque bound => exact (varOpaque hd.strict bound).bind fun _ _ _ _ _ _ => .pure _
  | string bound => exact (string hd.strict bound).bind fun _ _ _ _ _ _ => .pure _
  | flag => exact flag.bind fun _ _ _ _ _ _ => .pure _
  | optional item ih =>
    refine flag.bind fun present j _ _ _ _ => ?_
    cases present with
    | true => exact ih ⟨h.forward, h.quiet, h.names⟩ j
    | false => exact .pure _
  | fixedArray n item ih =>
    exact (repeated (ih ⟨h.forward, h.quiet, h.names⟩) n.toNat [] i).bind fun _ _ _ _ _ _ => .pure _
  | array bound item ih =>
    exact (length bound).bind fun n j _ _ _ _ =>
      (repeated (ih ⟨h.forward, h.quiet, h.names⟩) n [] j).bind fun _ _ _ _ _ _ => .pure _

lemma values (h : ∀ x ∈ slots, x.form.Fair b) (i : Input) : Pointing b (values d slots) i := by
  induction slots generalizing i with
  | nil => exact .pure _
  | cons x rest ih =>
    obtain ⟨hx, hrest⟩ := List.forall_mem_cons.1 h
    exact (read hd hx i).bind fun v j _ _ _ _ => (ih hrest j).bind fun vs _ _ _ _ _ => .pure _

lemma heads (h : ∀ x ∈ c.before, x.form.Fair b) (n : Nat) (done : List (List Value)) (i : Input) :
    Pointing b (heads d c n done) i := by
  induction n generalizing done i with
  | zero => exact .throw (by simp)
  | succ n ih =>
    refine (values hd h i).bind fun head j _ _ _ _ => flag.bind fun more k _ _ _ _ => ?_
    cases more with
    | true => exact ih (head :: done) k
    | false => exact .pure _

lemma nodes (h : ∀ x ∈ c.behind, x.form.Fair b) (hwrappers : ∀ w ∈ c.wrappers, w.2.Quiet)
    (key : ClassKey) (found : List (List Value)) (next : Value) (i : Input) :
    Pointing b (nodes d key c found next) i := by
  induction found generalizing next i with
  | nil => exact .pure next
  | cons head rest ih =>
    exact (settle (quiet_wrap hd.quiet hwrappers next)).bind fun link j _ _ _ _ =>
      (values hd h j).bind fun tail k _ _ _ _ =>
      (settle (hd.quiet key _)).bind fun node l _ _ _ _ => ih node l

lemma build (m : Module) {branch : Branch} (h : ∀ form ∈ branch.payload, form.Fair b)
    (hquiet : branch.Quiet) (disc : Value) (i : Input) : Pointing b (build m d branch disc) i := by
  refine (settle hquiet.target).bind fun target j _ _ _ _ => ?_
  cases hpayload : branch.payload with
  | none => exact settle (m.quiet_invoke target _ _)
  | some form =>
    exact (read hd (h form hpayload) j).bind fun v _ _ _ _ _ => settle (m.quiet_invoke target _ _)

lemma union {m : Module} (hu : (Body.union u).Fair m b) (i : Input) :
    Pointing b (union m d u) i := by
  obtain ⟨hforms, hbranches, hblames⟩ := hu
  obtain ⟨hdisc, hpayload⟩ := Body.forall_union.1 hforms
  refine (read hd hdisc i).bind fun disc j bs hi hrun hbs => ?_
  cases hselect : select m disc u.branches with
  | error f =>
    have hquiet := quiet_select (m := m) disc fun b hb =>
      (hbranches b (List.mem_append_left _ hb)).labels
    exact .throw fun d hd => hquiet d (hd ▸ hselect)
  | ok selected =>
    cases selected with
    | some branch =>
      have hmem : branch ∈ u.branches ++ u.fallback.toList :=
        List.mem_append_left _ (mem_of_select hselect)
      exact build hd m (hpayload branch hmem) (hbranches branch hmem) disc j
    | none =>
      cases hdefault : u.fallback with
      | some branch =>
        have hmem : branch ∈ u.branches ++ u.fallback.toList := by simp [hdefault]
        exact build hd m (hpayload branch hmem) (hbranches branch hmem) disc j
      | none =>
        have hfault := hblames d i disc j hi hrun hselect hdefault
        rw [settle_ok_bind]
        refine offset ?_
        cases hshown : shown m disc with
        | error f => exact .throw fun d hd => quiet_shown disc d (hd ▸ hshown)
        | ok text => exact .fail (hbs.data ▸ hfault)

lemma own (m : Module) (n : Nat)
    (h : ∀ body, m.body? key.reader = some body → body.Fair m b) (i : Input) :
    Pointing b (own m d n key) i := by
  rw [own_eq]
  split_ifs
  · exact .throw (by simp)
  · cases hbody : m.body? key.reader with
    | none => exact .throw (by simp)
    | some body =>
      have hfair := h body hbody
      have hforms := hfair.forms
      cases body with
      | record slots =>
        exact (values hd (List.forall_mem_map.1 hforms) i).bind fun vs _ _ _ _ _ =>
          settle (hd.quiet _ _)
      | chain c =>
        obtain ⟨hbefore, hbehind⟩ := Body.forall_chain.1 hforms
        exact (heads hd hbefore n [] i).bind fun found j _ _ _ _ =>
          (settle m.quiet_canReverse).bind fun _ k _ _ _ _ =>
          nodes hd hbehind hfair.quiet _ found .null k
      | union u => exact union hd hfair i
      | arm a => exact .throw (by simp)

end Pointing

lemma Module.pointing_unpack {m : Module} {b : Blame} {strict : Bool}
    (hstrict : strict → b.strict)
    (h : ∀ (key : ClassKey) body, m.body? key.reader = some body → body.Fair m b) (n : Nat) (key : ClassKey)
    (i : Input) :
    Pointing b (m.unpack strict n key) i := by
  induction n generalizing key i with
  | zero => exact .throw (by simp)
  | succ n ih =>
    exact .own ⟨hstrict, fun key args => m.quiet_construct key args [], ih⟩ m (n + 1) (h key) i

/-! ## Padding on the way -/

open List

variable {mention : Mention} {c : ChainBody}

structure Gap where
  start : Int
  bytes : List UInt8
deriving DecidableEq

namespace Gap

def IsClean (g : Gap) : Prop := ∀ b ∈ g.bytes, b = 0

instance (g : Gap) : Decidable g.IsClean := inferInstanceAs (Decidable (∀ b ∈ g.bytes, b = 0))

/-- It stands in the data between two places, less than a word of it. -/
structure Lies (data : List UInt8) (start stop : Int) (g : Gap) : Prop where
  stands : StandsAt data g.start g.bytes
  size : 0 < g.bytes.length ∧ g.bytes.length < 4
  starts : start ≤ g.start
  stops : g.start + g.bytes.length ≤ stop

end Gap

/-- A reader that notes the padding behind what it has noted before. -/
abbrev Traced (α : Type) := ExceptT Fault (StateM (Input × List Gap)) α

namespace Traced

variable {α : Type}

def ofRead (r : Read α) : Traced α := fun (i, gaps) => ((r i).1, ((r i).2, gaps))

def note (g : Gap) : Traced Unit := fun (i, gaps) => (.ok (), (i, gaps ++ [g]))

/-- Passes over the padding behind `n` bytes. -/
def skipPadding (n : Int) : Traced Unit :=
  if paddingInt n != 0 then do
    let start ← ofRead Read.offset
    let padding ← ofRead (Read.take (paddingInt n))
    note ⟨start, padding⟩
  else return

def fixedOpaque (n : Int) : Traced (List UInt8) := do
  let data ← ofRead (Read.take n)
  skipPadding n
  return data

def varOpaque (bound : Option Int) : Traced (List UInt8) := do
  fixedOpaque (← ofRead (Read.length bound))

def string (bound : Option Int) : Traced String := do
  let start ← ofRead Read.offset
  let data ← varOpaque bound
  match Wire.textOfBytes data with
  | .ok s => return s
  | .error f => throw (.decode (.nonUtf8 f.reason start))

/-- Values one after the other, put before those in `done`, which are in reverse. -/
def repeated (item : Traced Value) : Nat → List Value → Traced (List Value)
  | 0, done => return done.reverse
  | n + 1, done => do
    let v ← item
    repeated item n (v :: done)

variable (d : Decoder) (unpack : ClassKey → Traced Value)

def readInstance : Mention → Traced Value
  | .cls key => unpack key
  | m => ofRead (m.readInstance d)

def read : Form → Traced Value
  | .cls m => readInstance d unpack m
  | .fixedOpaque n => return .bytes (← fixedOpaque n) .view
  | .varOpaque bound => return .bytes (← varOpaque bound) .view
  | .string bound => return .str (← string bound)
  | .optional item => do if ← ofRead Read.flag then read item else return .null
  | .fixedArray n item => return .list (← repeated (read item) n.toNat [])
  | .array bound item => do
    let n ← ofRead (Read.length bound)
    return .list (← repeated (read item) n [])
  | form => ofRead (form.read d)

def values : List Slot → Traced (List Value)
  | [] => return []
  | s :: rest => do
    let v ← read d unpack s.form
    return v :: (← values rest)

/-- The values before the link of all nodes, last node first. -/
def heads (c : ChainBody) : Nat → List (List Value) → Traced (List (List Value))
  | 0, _ => throw .tooDeep
  | n + 1, done => do
    let head ← values d unpack c.before
    if ← ofRead Read.flag then heads c n (head :: done) else return head :: done

/-- The nodes from their heads, last node first. -/
def nodes (key : ClassKey) (c : ChainBody) : List (List Value) → Value → Traced Value
  | [], next => return next
  | head :: rest, next => do
    let link ← ofRead (settle (wrap d c next))
    let tail ← values d unpack c.behind
    let node ← ofRead (settle (d.make key (head ++ link :: tail)))
    nodes key c rest node

def chain (m : Module) (n : Nat) (key : ClassKey) (c : ChainBody) : Traced Value := do
  let found ← heads d unpack c n []
  ofRead (settle m.canReverse)
  nodes d unpack key c found .null

def build (m : Module) (b : Branch) (disc : Value) : Traced Value := do
  let target ← ofRead (settle b.target)
  match b.payload with
  | none => ofRead (settle (m.invoke target [disc] []))
  | some form =>
    let payload ← read d unpack form
    ofRead (settle (m.invoke target [payload, disc] []))

/-- An instance of the arm that the discriminant selects. -/
def union (m : Module) (u : UnionBody) : Traced Value := do
  let disc ← read d unpack u.disc
  match ← ofRead (settle (select m disc u.branches)), u.fallback with
  | some b, _ => build d unpack m b disc
  | none, some b => build d unpack m b disc
  | none, none =>
    let start := (← ofRead Read.offset) - u.discSize
    let text ← ofRead (settle (shown m disc))
    throw (.decode (.unknownDiscriminant u.name (disc.wholeNumber?.getD 0) text start))

def own (m : Module) (n : Nat) (key : ClassKey) : Traced Value :=
  if !(m.head? key.reader).all (·.isReadable) then throw .notApplicable
  else
    match m.body? key.reader with
    | some (.record s) => do ofRead (settle (d.make key.reader (← values d unpack s)))
    | some (.chain c) => chain d unpack m n key.reader c
    | some (.union u) => union d unpack m u
    | some (.arm _) => throw .notApplicable
    | none => throw .unimplemented

end Traced

/-- Reads an instance of a class that is nested less than `n` levels deep, and notes the padding. -/
def Module.trace (m : Module) : Nat → ClassKey → Traced Value
  | 0, _ => throw .tooDeep
  | n + 1, key =>
    Traced.own ⟨false, m.unpack false n, fun key args => m.construct key args []⟩ (m.trace n) m (n + 1) key

section

variable {α β : Type}

/-- What a strict reader does where a lax one passes over padding: the same, or it ends at the first
padding that is not clean. -/
inductive Verdict (gaps : List Gap) (lax : Except Fault α × Input) : Except Fault α × Input → Prop
  | same (h : ∀ g ∈ gaps, g.IsClean) : Verdict gaps lax lax
  | refused {before behind : List Gap} {g : Gap} (j : Input) (hgaps : gaps = before ++ g :: behind)
      (hbefore : ∀ h ∈ before, h.IsClean) (hg : ¬ g.IsClean) :
      Verdict gaps lax (.error (.decode (.invalidPadding g.start)), j)

lemma Verdict.after {gaps gaps' : List Gap} (hclean : ∀ g ∈ gaps, g.IsClean)
    {lax strict : Except Fault α × Input} (h : Verdict gaps' lax strict) :
    Verdict (gaps ++ gaps') lax strict := by
  cases h with
  | same h => exact .same (forall_mem_append.2 ⟨hclean, h⟩)
  | @refused before behind g j hgaps hbefore hg =>
    have hsplit : gaps ++ gaps' = (gaps ++ before) ++ g :: behind := by
      rw [hgaps, append_assoc]
    exact .refused j hsplit (forall_mem_append.2 ⟨hclean, hbefore⟩) hg

def Blame.lax : Blame := ⟨false, fun _ => True, fun _ _ _ _ => True⟩

structure Watched (lax strict : Read α) (traced : Traced α) : Prop where
  outcome : ∀ i : Input, i.Stands → ∃ gaps,
    (∀ noted, traced (i, noted) = ((lax i).1, (lax i).2, noted ++ gaps)) ∧
      Verdict gaps (lax i) (strict i) ∧ ∀ g ∈ gaps, g.Lies i.data i.offset (lax i).2.offset
  goes : ∀ {i j : Input} {x : Except Fault α}, i.Stands → lax i = (x, j) → ∃ bs, i.Goes bs j

namespace Watched

lemma ofRead {r : Read α} (h : ∀ i, Pointing .lax r i) : Watched r r (.ofRead r) where
  outcome i _ := ⟨[], fun noted => by simp [Traced.ofRead], .same (by simp), by simp⟩
  goes {i j x} hi hrun := (h i hi x j hrun).1

lemma pure (a : α) : Watched (Pure.pure a) (Pure.pure a) (Pure.pure a) where
  outcome i _ := ⟨[], fun noted => by rw [append_nil]; rfl, .same (by simp), by simp⟩
  goes hi hrun := ((Pointing.pure a : Pointing .lax _ _) hi _ _ hrun).1

lemma throw (f : Fault) : Watched (throw f : Read α) (throw f) (throw f) where
  outcome i _ := ⟨[], fun noted => by rw [append_nil]; rfl, .same (by simp), by simp⟩
  goes {i j x} _ hrun := by
    cases hrun
    exact ⟨[], .refl i⟩

lemma settle {x : Except Fault α} (h : Quiet x) :
    Watched (settle x) (settle x) (.ofRead (settle x)) :=
  ofRead fun _ => .settle h

lemma bind {lax strict : Read α} {traced : Traced α} {lax' strict' : α → Read β}
    {traced' : α → Traced β} (hx : Watched lax strict traced)
    (hf : ∀ a, Watched (lax' a) (strict' a) (traced' a)) :
    Watched (lax >>= lax') (strict >>= strict') (traced >>= traced') where
  outcome i hi := by
    obtain ⟨gaps, htrace, hverdict, hlies⟩ := hx.outcome i hi
    generalize hstrict : strict i = found at hverdict
    cases hlax : lax i with
    | mk result mid =>
      rw [hlax] at htrace hverdict
      cases result with
      | error f =>
        rw [run_bind_of_error hlax]
        rw [hlax] at hlies
        refine ⟨gaps, fun noted => run_bind_of_error (htrace noted), ?_, hlies⟩
        cases hverdict with
        | same hclean =>
          rw [run_bind_of_error hstrict]
          exact .same hclean
        | refused j hgaps hbefore hg =>
          rw [run_bind_of_error hstrict]
          exact .refused j hgaps hbefore hg
      | ok a =>
        obtain ⟨bs, hbs⟩ := hx.goes hi hlax
        have hmid := hi.goes hbs
        obtain ⟨gaps', htrace', hverdict', hlies'⟩ := (hf a).outcome mid hmid
        obtain ⟨cs, hcs⟩ := (hf a).goes hmid (Eq.refl (lax' a mid))
        refine ⟨gaps ++ gaps', fun noted => ?_, ?_, ?_⟩
        · rw [run_bind_of_ok (htrace noted), run_bind_of_ok hlax, htrace', append_assoc]
        · rw [run_bind_of_ok hlax]
          cases hverdict with
          | same hclean =>
            rw [run_bind_of_ok hstrict]
            exact hverdict'.after hclean
          | @refused before behind g j hgaps hbefore hg =>
            rw [run_bind_of_error hstrict]
            have hsplit : gaps ++ gaps' = before ++ g :: (behind ++ gaps') := by
              rw [hgaps, append_assoc, cons_append]
            exact .refused j hsplit hbefore hg
        · rw [hlax] at hlies
          rw [run_bind_of_ok hlax]
          have hstart := hbs.offset
          have hstop := hcs.offset
          refine forall_mem_append.2 ⟨fun g hg => ?_, fun g hg => ?_⟩
          · have hg := hlies g hg
            have hstops : g.start + g.bytes.length ≤ mid.offset := hg.stops
            exact ⟨hg.stands, hg.size, hg.starts, by omega⟩
          · have hg := hlies' g hg
            have hstarts := hg.starts
            exact ⟨hbs.data ▸ hg.stands, hg.size, by omega, hg.stops⟩
  goes {i j x} hi h := by
    cases hrun : lax i with
    | mk result mid =>
      obtain ⟨bs, hbs⟩ := hx.goes hi hrun
      cases result with
      | error f =>
        rw [run_bind_of_error hrun] at h
        cases h
        exact ⟨bs, hbs⟩
      | ok a =>
        rw [run_bind_of_ok hrun] at h
        obtain ⟨cs, hcs⟩ := (hf a).goes (hi.goes hbs) h
        exact ⟨bs ++ cs, hbs.trans hcs⟩

end Watched

end

namespace Watched

lemma offset : Watched Read.offset Read.offset (.ofRead Read.offset) :=
  ofRead fun i => Pointing.pure i.offset

lemma length (bound : Option Int) :
    Watched (Read.length bound) (Read.length bound) (.ofRead (Read.length bound)) :=
  ofRead fun _ => .length bound

lemma flag : Watched Read.flag Read.flag (.ofRead Read.flag) := ofRead fun _ => .flag

lemma skipPadding (n : Nat) :
    Watched (Read.skipPadding false n) (Read.skipPadding true n) (Traced.skipPadding n) := by
  refine ⟨fun i hi => ?_, fun {i j x} hi hrun => ?_⟩
  · unfold Read.skipPadding Traced.skipPadding
    rw [paddingInt_natCast]
    split_ifs with hpadding
    · have hstart : ∀ {β : Type} (f : Int → Read β), (Read.offset >>= f) i = f i.offset i := fun _ => rfl
      rw [hstart, hstart]
      have htrace : ∀ noted, (Traced.ofRead (Read.take (padding n))) (i, noted) =
          ((Read.take (padding n) i).1, (Read.take (padding n) i).2, noted) := fun _ => rfl
      cases htake : Read.take (padding n) i with
      | mk result j =>
        rw [htake] at htrace
        cases result with
        | error f =>
          rw [run_bind_of_error htake, run_bind_of_error htake]
          refine ⟨[], fun noted => ?_, .same (by simp), by simp⟩
          rw [append_nil]
          exact (run_bind_of_ok (x := Traced.ofRead Read.offset) rfl).trans (run_bind_of_error (htrace noted))
        | ok bs =>
          rw [run_bind_of_ok htake, run_bind_of_ok htake]
          refine ⟨[⟨i.offset, bs⟩], fun noted =>
            (run_bind_of_ok (x := Traced.ofRead Read.offset) rfl).trans (run_bind_of_ok (htrace noted)), ?_, ?_⟩
          · by_cases hclean : bs.any (· != 0)
            · rw [hclean, Bool.and_true, Bool.and_true, if_pos rfl, if_neg (by simp)]
              have hsplit : [(⟨i.offset, bs⟩ : Gap)] = [] ++ ⟨i.offset, bs⟩ :: [] := rfl
              refine .refused j hsplit (by simp) fun h => ?_
              obtain ⟨b, hb, hne⟩ := any_eq_true.1 hclean
              simp [h b hb] at hne
            · rw [Bool.eq_false_iff.2 hclean, Bool.and_false, Bool.and_false]
              refine .same fun g hg => ?_
              rw [mem_singleton.1 hg]
              simpa [Gap.IsClean] using hclean
          · intro g hg
            rw [mem_singleton.1 hg]
            obtain ⟨hbs, hlength⟩ := goes_of_take hi.front htake
            have hsome : padding n ≠ 0 := by simpa using hpadding
            have hfew := padding_lt n
            refine ⟨hi.standsAt hbs, ?_, le_rfl, hbs.offset.ge⟩
            dsimp only
            omega
    · exact (pure ()).outcome i hi
  · have hlax : Pointing .lax (Read.skipPadding false n) i := .skipPadding (by simp) n
    exact (hlax hi x j hrun).1

lemma fixedOpaque (n : Nat) :
    Watched (Read.fixedOpaque false n) (Read.fixedOpaque true n) (Traced.fixedOpaque n) :=
  (ofRead fun _ => .take n).bind fun data => (skipPadding n).bind fun _ => .pure data

lemma varOpaque (bound : Option Int) :
    Watched (Read.varOpaque false bound) (Read.varOpaque true bound) (Traced.varOpaque bound) :=
  (length bound).bind fixedOpaque

lemma string (bound : Option Int) :
    Watched (Read.string false bound) (Read.string true bound) (Traced.string bound) := by
  refine offset.bind fun start => (varOpaque bound).bind fun data => ?_
  cases Wire.textOfBytes data with
  | ok s => exact .pure s
  | error f => exact .throw _

lemma repeated {lax strict : Read Value} {traced : Traced Value} (h : Watched lax strict traced)
    (n : Nat) (done : List Value) :
    Watched (Read.repeated lax n done) (Read.repeated strict n done) (traced.repeated n done) := by
  induction n generalizing done with
  | zero => exact .pure _
  | succ n ih => exact h.bind fun v => ih (v :: done)

end Watched

structure Watching (lax strict : Decoder) (unpack : ClassKey → Traced Value) : Prop where
  passes : lax.strict = false
  looks : strict.strict = true
  make : strict.make = lax.make
  points : lax.Points .lax
  unpack : ∀ key, Watched (lax.unpack key) (strict.unpack key) (unpack key)

namespace Watching

variable {lax strict : Decoder} {unpack : ClassKey → Traced Value} (hw : Watching lax strict unpack)

include hw

lemma readVariant (h : mention.Quiet) :
    Watched (mention.readVariant lax) (mention.readVariant strict) (.ofRead (mention.readVariant lax)) := by
  have hsame : mention.readVariant strict = mention.readVariant lax := by
    cases mention <;> simp only [Mention.readVariant, hw.make]
  rw [hsame]
  exact .ofRead (Pointing.readVariant hw.points h fun _ _ => trivial)

lemma readInstance (h : mention.Quiet) :
    Watched (mention.readInstance lax) (mention.readInstance strict)
      (Traced.readInstance lax unpack mention) := by
  cases mention with
  | cls key => exact hw.unpack key
  | _ => exact .ofRead (Pointing.readInstance hw.points h fun _ _ => trivial)

lemma read (h : form.Fair .lax) :
    Watched (form.read lax) (form.read strict) (Traced.read lax unpack form) := by
  induction form with
  | scalar b => exact .ofRead fun _ => .scalar b
  | enum m => exact hw.readVariant h.quiet
  | cls m => exact hw.readInstance h.quiet
  | length bound =>
    exact .ofRead fun _ => (Pointing.length bound).bind fun _ _ _ _ _ _ => .pure _
  | fixedOpaque n =>
    obtain ⟨k, rfl⟩ := Int.eq_ofNat_of_zero_le h.forward
    rw [Form.read, Form.read, hw.passes, hw.looks]
    exact (Watched.fixedOpaque k).bind fun _ => .pure _
  | varOpaque bound =>
    rw [Form.read, Form.read, hw.passes, hw.looks]
    exact (Watched.varOpaque bound).bind fun _ => .pure _
  | string bound =>
    rw [Form.read, Form.read, hw.passes, hw.looks]
    exact (Watched.string bound).bind fun _ => .pure _
  | flag => exact .ofRead fun _ => Pointing.flag.bind fun _ _ _ _ _ _ => .pure _
  | optional item ih =>
    refine Watched.flag.bind fun present => ?_
    cases present with
    | true => exact ih ⟨h.forward, h.quiet, h.names⟩
    | false => exact .pure _
  | fixedArray n item ih => exact ((ih ⟨h.forward, h.quiet, h.names⟩).repeated n.toNat []).bind fun _ => .pure _
  | array bound item ih =>
    exact (Watched.length bound).bind fun n => ((ih ⟨h.forward, h.quiet, h.names⟩).repeated n []).bind fun _ => .pure _

lemma values (h : ∀ x ∈ slots, x.form.Fair .lax) :
    Watched (values lax slots) (values strict slots) (Traced.values lax unpack slots) := by
  induction slots with
  | nil => exact .pure _
  | cons x rest ih =>
    obtain ⟨hx, hrest⟩ := forall_mem_cons.1 h
    exact (hw.read hx).bind fun v => (ih hrest).bind fun vs => .pure _

lemma heads (h : ∀ x ∈ c.before, x.form.Fair .lax) (n : Nat) (done : List (List Value)) :
    Watched (heads lax c n done) (heads strict c n done) (Traced.heads lax unpack c n done) := by
  induction n generalizing done with
  | zero => exact .throw _
  | succ n ih =>
    refine (hw.values h).bind fun head => Watched.flag.bind fun more => ?_
    cases more with
    | true => exact ih (head :: done)
    | false => exact .pure _

lemma nodes (h : ∀ x ∈ c.behind, x.form.Fair .lax) (hwrappers : ∀ w ∈ c.wrappers, w.2.Quiet)
    (key : ClassKey) (found : List (List Value)) (next : Value) :
    Watched (nodes lax key c found next) (nodes strict key c found next)
      (Traced.nodes lax unpack key c found next) := by
  induction found generalizing next with
  | nil => exact .pure next
  | cons head rest ih =>
    have hwrap : wrap strict c next = wrap lax c next := by simp only [wrap, hw.make]
    rw [Unpack.nodes, Unpack.nodes, hwrap, hw.make]
    exact (Watched.settle (quiet_wrap hw.points.quiet hwrappers next)).bind fun link =>
      (hw.values h).bind fun tail =>
      (Watched.settle (hw.points.quiet key _)).bind ih

lemma build (m : Module) {b : Branch} (h : ∀ form ∈ b.payload, form.Fair .lax) (hquiet : b.Quiet)
    (disc : Value) :
    Watched (build m lax b disc) (build m strict b disc) (Traced.build lax unpack m b disc) := by
  refine (Watched.settle hquiet.target).bind fun target => ?_
  cases hpayload : b.payload with
  | none => exact .settle (m.quiet_invoke target _ _)
  | some form =>
    exact (hw.read (h form hpayload)).bind fun v => .settle (m.quiet_invoke target _ _)

lemma union (m : Module) (hu : (Body.union u).Fair m .lax) :
    Watched (union m lax u) (union m strict u) (Traced.union lax unpack m u) := by
  obtain ⟨hforms, hbranches, -⟩ := hu
  obtain ⟨hdisc, hpayload⟩ := Body.forall_union.1 hforms
  refine (hw.read hdisc).bind fun disc => ?_
  cases hselect : select m disc u.branches with
  | error f => exact .throw f
  | ok selected =>
    cases selected with
    | some b =>
      have hb : b ∈ u.branches ++ u.fallback.toList := mem_append_left _ (mem_of_select hselect)
      exact hw.build m (hpayload b hb) (hbranches b hb) disc
    | none =>
      cases hdefault : u.fallback with
      | some b =>
        have hb : b ∈ u.branches ++ u.fallback.toList := by simp [hdefault]
        exact hw.build m (hpayload b hb) (hbranches b hb) disc
      | none =>
        refine Watched.offset.bind fun start => (Watched.settle (quiet_shown (m := m) disc)).bind
          fun text => .throw (.decode (.unknownDiscriminant u.name (disc.wholeNumber?.getD 0) text
            (start - u.discSize)))

lemma own (m : Module) (n : Nat)
    (h : ∀ body, m.body? key.reader = some body → body.Fair m .lax) :
    Watched (own m lax n key) (own m strict n key) (Traced.own lax unpack m n key) := by
  rw [own_eq, own_eq, Traced.own]
  split_ifs
  · exact .throw _
  · cases hbody : m.body? key.reader with
    | none => exact .throw _
    | some b =>
      have hfair := h b hbody
      have hforms := hfair.forms
      cases b with
      | record slots =>
        dsimp only
        rw [hw.make]
        exact (hw.values (forall_mem_map.1 hforms)).bind fun vs => .settle (hw.points.quiet _ _)
      | chain c =>
        obtain ⟨hbefore, hbehind⟩ := Body.forall_chain.1 hforms
        exact (hw.heads hbefore n []).bind fun found => (Watched.settle m.quiet_canReverse).bind
          fun _ => hw.nodes hbehind hfair.quiet _ found .null
      | union u => exact hw.union m hfair
      | arm a => exact .throw _

end Watching

lemma Watched.unpack {m : Module}
    (h : ∀ (key : ClassKey) body, m.body? key.reader = some body → body.Fair m .lax) (n : Nat) (key : ClassKey) :
    Watched (m.unpack false n key) (m.unpack true n key) (m.trace n key) := by
  induction n generalizing key with
  | zero => exact .throw _
  | succ n ih =>
    have hw : Watching ⟨false, m.unpack false n, fun key args => m.construct key args []⟩
        ⟨true, m.unpack true n, fun key args => m.construct key args []⟩ (m.trace n) :=
      ⟨rfl, rfl, rfl, ⟨by simp, fun key args => m.quiet_construct key args [],
        m.pointing_unpack (by simp) h n⟩, ih⟩
    exact hw.own m (n + 1) (h key)

end Xdr
