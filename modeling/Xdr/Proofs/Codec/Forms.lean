import Xdr.Proofs.Keys
import Xdr.Proofs.Number.Narrowing
import Xdr.Proofs.Parts
import Xdr.Proofs.Wire.Writers

/-!
# Reading and writing forms

What a form reads and writes is what its rules say, as soon as the instances in it are read and
written as theirs say.
-/

namespace Xdr

open Wire List

variable {v : Value} {c : Cells} {item form : Form} {items : List Value} {strict : Bool}
  {I : ClassKey → Value → Cells → Prop} {R : UInt64 → Nat → Prop} {n : Int}
  {T : ClassKey → Value → Prop} {D F P : UInt64 → Prop} {w : Value → Write} {variant : String}
  {r : Read Value} {b : Builtin}

namespace Form

def Simple : Form → Prop
  | scalar _ => True
  | enum (.enum e) => e.plain = [] ∧ (e.members.map (·.2)).Nodup
  | cls (.cls (.type _)) => True
  | _ => False

def Regular : Form → Prop
  | fixedOpaque n => 0 ≤ n
  | varOpaque _ => True
  | string _ => True
  | optional item => item.Simple
  | fixedArray n item => 0 ≤ n ∧ item.Simple
  | array _ item => item.Simple
  | form => form.Simple

/-- The class of which a form holds instances in place, without a flag or a number before them. -/
def held : Form → Option ClassKey
  | cls (.cls key) => some key
  | fixedArray _ item => item.held
  | _ => none

end Form

section

variable {I J : ClassKey → Value → Cells → Prop} {R S : UInt64 → Nat → Prop}

lemma ScalarLaid.imp (hR : ∀ bits n, P bits → R bits n → S bits n) (h : ScalarLaid R b v c)
    (hv : v.AllFloats P) : ScalarLaid S b v c := by
  cases h with
  | int h => exact .int h
  | uint h => exact .uint h
  | hyper h => exact .hyper h
  | uhyper h => exact .uhyper h
  | float hn h => exact .float hn (hR _ _ (by simpa only [Value.AllFloats] using hv) h)
  | double bits => exact .double bits
  | bool b => exact .bool b

lemma ItemsLaid.imp (h : ItemsLaid I R item items c)
    (himp : ∀ v ∈ items, ∀ d : Cells, FormLaid I R item v d → d.length ≤ c.length →
      FormLaid J S item v d) : ItemsLaid J S item items c := by
  induction items generalizing c with
  | nil =>
    cases h
    exact .nil
  | cons v rest ih =>
    cases h with
    | cons hv hrest =>
      rw [length_append] at himp
      refine .cons (himp v (by simp) _ hv (by omega)) (ih hrest fun w hw d hd hle => ?_)
      exact himp w (mem_cons_of_mem v hw) d hd (by omega)

lemma FormLaid.imp (h : FormLaid I R form v c) (hv : v.AllFloats P)
    (hI : ∀ key w d, I key w d → w.AllFloats P → w.depth ≤ v.depth → d.length ≤ c.length →
      (form.held = some key ∨ d.length + 4 ≤ c.length) → J key w d)
    (hR : ∀ bits n, P bits → R bits n → S bits n) : FormLaid J S form v c := by
  induction form generalizing v c with
  | scalar b =>
    cases h with
    | scalar h => exact .scalar (h.imp hR hv)
  | enum m =>
    cases h with
    | enum h hn => exact .enum h hn
  | cls m =>
    cases h with
    | cls h => exact .cls (hI _ _ _ h hv le_rfl le_rfl (.inl rfl))
  | length bound => cases h
  | fixedOpaque n =>
    cases h with
    | fixedOpaque h lies => exact .fixedOpaque h lies
  | varOpaque bound =>
    cases h with
    | varOpaque h lies => exact .varOpaque h lies
  | string bound =>
    cases h with
    | string h => exact .string h
  | flag => cases h
  | optional item ih =>
    cases h with
    | absent => exact .absent
    | present hnull h =>
      refine .present hnull (ih h hv fun key w d hw hfloats hdepth hlength _ => ?_)
      rw [length_append, Cells.length_word] at hI
      exact hI key w d hw hfloats hdepth (by omega) (.inr (by omega))
  | fixedArray n item ih =>
    cases h with
    | fixedArray hn h =>
      refine .fixedArray hn (h.imp fun w hw d hd hle => ?_)
      refine ih hd (Value.allFloats_list.1 hv w hw) fun key u e hu hfloats hdepth hlength hheld => ?_
      have hdeep := Value.depth_lt_list hw
      refine hI key u e hu hfloats (by omega) (by omega) ?_
      exact hheld.imp id fun hshort => by omega
  | array bound item ih =>
    cases h with
    | array hn h =>
      refine .array hn (h.imp fun w hw d hd hle => ?_)
      refine ih hd (Value.allFloats_list.1 hv w hw) fun key u e hu hfloats hdepth hlength _ => ?_
      have hdeep := Value.depth_lt_list hw
      rw [length_append, Cells.length_word] at hI
      exact hI key u e hu hfloats (by omega) (by omega) (.inr (by omega))

lemma FieldsLaid.imp {fields : List (String × Form)} {vs : Fields}
    (h : FieldsLaid I R fields vs c)
    (himp : ∀ f ∈ fields, ∀ g ∈ vs, ∀ d : Cells, FormLaid I R f.2 g.2 d → d.length ≤ c.length →
      FormLaid J S f.2 g.2 d) : FieldsLaid J S fields vs c := by
  induction h with
  | nil => exact .nil
  | cons h hrest ih =>
    rw [length_append] at himp
    refine .cons (himp _ (.head _) _ (.head _) _ h (by omega)) (ih ?_)
    intro f hf g hg d hd hle
    exact himp f (.tail _ hf) g (.tail _ hg) d hd (by omega)

end

lemma search_eq_find (e : EnumClass) (test : Int → Bool) :
    e.search (fun n => .ok (test n)) =
      .ok ((e.members.find? fun m => test m.2).map fun m => .member e.name m.1 m.2) := by
  have hfind : e.members.findM? (fun m => (.ok (test m.2) : Except Fault Bool)) =
      .ok (e.members.find? fun m => test m.2) := findM?_pure _ _
  rw [EnumClass.search, hfind]
  rfl

lemma member_int (e : EnumClass) (n : Int) :
    e.member (.int n) =
      match e.members.find? fun m => decide (m.2 = n) with
      | some (variant, _) => .ok (.member e.name variant n)
      | none => .error e.missing := by
  have hnumber : ∀ k, (Value.int n).isNumber k = decide (k = n) := fun k => by
    simp [Value.isNumber, Value.wholeNumber?, Value.integer?, eq_comm]
  simp only [EnumClass.member, hnumber, search_eq_find]
  cases hfind : e.members.find? fun m => decide (m.2 = n) with
  | none => rfl
  | some found =>
    obtain rfl : found.2 = n := by simpa using find?_some hfind
    rfl

lemma member_of_mem {e : EnumClass} (h : (variant, n) ∈ e.members)
    (hdistinct : (e.members.map (·.2)).Nodup) :
    e.member (.int n) = .ok (.member e.name variant n) := by
  have hfind := find?_of_nodup_map hdistinct h
  rw [member_int, hfind]

lemma mem_of_member {e : EnumClass} (h : e.member (.int n) = .ok v) :
    ∃ variant, (variant, n) ∈ e.members ∧ v = .member e.name variant n := by
  rw [member_int] at h
  cases hfind : e.members.find? fun m => decide (m.2 = n) with
  | none => simp [hfind] at h
  | some found =>
    obtain rfl : found.2 = n := by simpa using find?_some hfind
    rw [hfind] at h
    cases h
    exact ⟨found.1, mem_of_find?_eq_some hfind, rfl⟩

lemma reads_enum {e : EnumClass} (h : (variant, n) ∈ e.members) (hn : FitsSigned 4 n)
    (hdistinct : (e.members.map (·.2)).Nodup) :
    Reads strict (Read.enum e) (.number n) (.member e.name variant n) := by
  refine Reads.offset fun start => (reads_signedWord hn).bind_pure ?_
  rw [member_of_mem h hdistinct]

lemma takes_enum (e : EnumClass) :
    Takes strict (Read.enum e) fun cells v => ∃ variant n, (variant, n) ∈ e.members ∧
      FitsSigned 4 n ∧ v = .member e.name variant n ∧ cells = .number n := by
  refine Takes.offset fun start => (takes_signedWord 4).bind_last ?_
  rintro cells n ⟨hn, rfl⟩
  cases hmember : e.member (.int n) with
  | ok v =>
    obtain ⟨variant, hmem, rfl⟩ := mem_of_member hmember
    exact Takes.pure ⟨rfl, variant, n, hmem, hn, rfl, rfl⟩
  | error f => cases f <;> exact Takes.throw _

section

variable {e : Encoder} (he : e.toConduct.Regular)
  (helements : ∀ items, e.elements (.list items) = some items)

lemma writes_each (hw : ∀ v c, FormLaid I R item v c → Writes (w v) c)
    (h : ItemsLaid I R item items c) : Writes (Write.each w items) c := by
  induction items generalizing c with
  | nil =>
    cases h
    exact Writes.pure
  | cons v rest ih =>
    cases h with
    | cons hv hrest => exact (hw v _ hv).bind (ih hrest)

lemma puts_each (hw : ∀ v ∈ items, Puts (w v) (FormLaid I R item v)) :
    Puts (Write.each w items) (ItemsLaid I R item items) := by
  induction items with
  | nil => exact Puts.pure .nil
  | cons v rest ih =>
    refine (hw v (by simp)).bind fun c hc => ?_
    exact (ih fun u hu => hw u (mem_cons_of_mem v hu)).mono fun d hd => .cons hc hd

include he

lemma Form.Simple.writes (hR : ∀ bits n, R bits n → Number.narrow? bits.toNat = some n)
    (hform : form.Simple) (h : FormLaid (fun _ w d => Writes (e.pack w) d) R form v c) :
    Writes (form.write e v) c := by
  cases h with
  | scalar h => exact writes_scalar he hR h
  | @enum cls variant n h hn =>
    have hplain : cls.hasPlain "__int__" = false := by simp [EnumClass.hasPlain, hform.1]
    simp only [Form.write, Mention.writeVariant, Write.enum, he.variant, hplain]
    exact writes_variant hn
  | cls h => exact h
  | _ => exact hform.elim

include helements

lemma Form.Regular.writes (hR : ∀ bits n, R bits n → Number.narrow? bits.toNat = some n)
    (hform : form.Regular) (h : FormLaid (fun _ w d => Writes (e.pack w) d) R form v c) :
    Writes (form.write e v) c := by
  cases h with
  | scalar h => exact writes_scalar he hR h
  | @enum cls _ _ h hn =>
    have hsimple : Form.Simple (.enum (.enum cls)) := hform
    exact hsimple.writes he hR (.enum h hn)
  | cls h => exact h
  | fixedOpaque h lies =>
    rw [Form.write, Write.fixedOpaque, if_pos h]
    exact writes_padded lies _
  | varOpaque h lies => exact writes_varOpaque lies h
  | string h => exact writes_varOpaque (by decide) h
  | absent => exact writes_flag false
  | present hnull h =>
    rw [Form.write, Write.optional, hnull]
    have hitem : Form.Simple _ := hform
    exact (writes_flag true).bind (hitem.writes he hR h)
  | fixedArray hn h =>
    simp only [Form.write, Write.fixedArray, helements, if_pos hn]
    exact writes_each (fun v c hv => hform.2.writes he hR hv) h
  | array hn h =>
    have hitem : Form.Simple _ := hform
    simp only [Form.write, Write.array, helements]
    exact (writes_length hn).bind (writes_each (fun v c hv => hitem.writes he hR hv) h)

omit helements in
lemma Form.Simple.puts (hT : ∀ key v, T key v → Puts (e.pack v) (I key v))
    (hF : Narrowed F R) (hform : form.Simple) (h : FormTyped T F D form v) :
    Puts (form.write e v) (FormLaid I R form v) := by
  cases h with
  | scalar h => exact (puts_scalar he hF h).mono fun c hc => .scalar hc
  | @enum cls variant n h =>
    have hplain : cls.hasPlain "__int__" = false := by simp [EnumClass.hasPlain, hform.1]
    simp only [Form.write, Mention.writeVariant, Write.enum, he.variant, hplain]
    refine (puts_variant n).mono ?_
    rintro c ⟨hn, rfl⟩
    exact .enum h hn
  | cls h => exact (hT _ v h).mono fun c hc => .cls hc
  | _ => exact hform.elim

lemma Form.Regular.puts (hT : ∀ key v, T key v → Puts (e.pack v) (I key v))
    (hF : Narrowed F R) (hform : form.Regular) (h : FormTyped T F D form v) :
    Puts (form.write e v) (FormLaid I R form v) := by
  cases h with
  | @scalar b _ h =>
    have hsimple : Form.Simple (.scalar b) := trivial
    exact hsimple.puts he hT hF (.scalar h)
  | @enum cls _ _ h =>
    have hsimple : Form.Simple (.enum (.enum cls)) := hform
    exact hsimple.puts (D := D) he hT hF (.enum h)
  | cls h => exact (hT _ v h).mono fun c hc => .cls hc
  | @fixedOpaque n bs storage h =>
    rw [Form.write, Write.fixedOpaque]
    split_ifs with hn
    · refine (writes_padded (Storage.lies h) bs).puts.mono ?_
      rintro c rfl
      exact .fixedOpaque hn (Storage.lies h)
    · exact Puts.throw _
  | varOpaque h =>
    refine (puts_varOpaque _ _ (Storage.lies h)).mono ?_
    rintro c ⟨hlength, rfl⟩
    exact .varOpaque hlength (Storage.lies h)
  | string s =>
    refine (puts_varOpaque _ _ (by decide)).mono ?_
    rintro c ⟨hlength, rfl⟩
    exact .string hlength
  | absent =>
    refine (writes_flag false).puts.mono ?_
    rintro c rfl
    exact .absent
  | present h =>
    have hitem : Form.Simple _ := hform
    rw [Form.write, Write.optional]
    split_ifs with hnull
    · obtain rfl : v = .null := by cases v <;> simp [Value.isNull] at hnull ⊢
      refine (writes_flag false).puts.mono ?_
      rintro c rfl
      exact .absent
    · refine (writes_flag true).puts.bind ?_
      rintro c rfl
      exact (hitem.puts he hT hF h).mono fun d hd => .present (by simpa using hnull) hd
  | fixedArray h =>
    simp only [Form.write, Write.fixedArray, helements]
    split_ifs with hn
    · exact (puts_each fun v hv => hform.2.puts he hT hF (h v hv)).mono fun c hc => .fixedArray hn hc
    · exact Puts.throw _
  | @array bound item items h =>
    have hitem : item.Simple := hform
    simp only [Form.write, Write.array, helements]
    refine (puts_length bound items.length).bind ?_
    rintro c ⟨hlength, rfl⟩
    exact (puts_each fun v hv => hitem.puts he hT hF (h v hv)).mono fun d hd => .array hlength hd

end

section

variable {d : Decoder}

lemma reads_scalar (hR : ∀ bits n, R bits n → bits = UInt64.ofNat (Number.widen n))
    (h : ScalarLaid R b v c) : Reads strict (Read.scalar b) c v := by
  cases h with
  | int h => exact (reads_signedWord h).bind_pure rfl
  | uint h => exact (reads_word h).bind_pure rfl
  | hyper h => exact (reads_signedWord h).bind_pure rfl
  | uhyper h => exact (reads_word h).bind_pure rfl
  | float hn h =>
    rw [hR _ _ h]
    exact (reads_word hn).bind_pure rfl
  | double bits => exact (reads_word bits.toNat_lt).bind_pure (by rw [UInt64.ofNat_toNat])
  | bool b => exact (reads_bool b).bind_pure rfl

lemma takes_scalar (hR : ∀ n, n < 256 ^ 4 → R (UInt64.ofNat (Number.widen n)) n) (b : Builtin) :
    Takes strict (Read.scalar b) fun c v => ScalarLaid R b v c := by
  cases b with
  | int =>
    refine (takes_signedWord 4).bind_last ?_
    rintro c n ⟨hn, rfl⟩
    exact Takes.pure ⟨rfl, .int hn⟩
  | uint =>
    refine (takes_word 4).bind_last ?_
    rintro c n ⟨hn, rfl⟩
    exact Takes.pure ⟨rfl, .uint hn⟩
  | hyper =>
    refine (takes_signedWord 8).bind_last ?_
    rintro c n ⟨hn, rfl⟩
    exact Takes.pure ⟨rfl, .hyper hn⟩
  | uhyper =>
    refine (takes_word 8).bind_last ?_
    rintro c n ⟨hn, rfl⟩
    exact Takes.pure ⟨rfl, .uhyper hn⟩
  | float =>
    refine (takes_word 4).bind_last ?_
    rintro c n ⟨hn, rfl⟩
    exact Takes.pure ⟨rfl, .float hn (hR n hn)⟩
  | double =>
    refine (takes_word 8).bind_last ?_
    rintro c n ⟨hn, rfl⟩
    have hbits : (UInt64.ofNat n).toNat = n := UInt64.toNat_ofNat_of_lt hn
    have hlaid := ScalarLaid.double (R := R) (UInt64.ofNat n)
    rw [hbits] at hlaid
    exact Takes.pure ⟨rfl, hlaid⟩
  | bool =>
    refine takes_bool.bind_last ?_
    rintro c b rfl
    exact Takes.pure ⟨rfl, .bool b⟩
  | _ => exact Takes.throw _

lemma reads_repeated (hr : ∀ v c, FormLaid I R item v c → Reads strict r c v.viewed)
    (h : ItemsLaid I R item items c) (done : List Value) :
    Reads strict (Read.repeated r items.length done) c (done.reverse ++ items.map Value.viewed) := by
  induction items generalizing c done with
  | nil =>
    cases h
    rw [map_nil, append_nil]
    exact Reads.pure _
  | cons v rest ih =>
    cases h with
    | cons hv hrest =>
      have hdone := ih hrest (v.viewed :: done)
      rw [reverse_cons, append_assoc] at hdone
      exact (hr v _ hv).bind hdone

lemma takes_repeated (hr : Takes strict r fun c v => FormLaid I R item v c ∧ v.viewed = v)
    (n : Nat) (done : List Value) :
    Takes strict (Read.repeated r n done) fun c vs => ∃ items, vs = done.reverse ++ items ∧
      items.length = n ∧ ItemsLaid I R item items c ∧ items.map Value.viewed = items := by
  induction n generalizing done with
  | zero => exact Takes.pure ⟨[], (append_nil _).symm, rfl, .nil, rfl⟩
  | succ n ih =>
    refine hr.bind ?_
    rintro c v ⟨hv, hviewed⟩
    refine (ih (v :: done)).mono ?_
    rintro e vs ⟨items, rfl, hlength, hitems, hmap⟩
    refine ⟨v :: items, by simp, by simp [hlength], .cons hv hitems, ?_⟩
    rw [map_cons, hviewed, hmap]

lemma Form.Simple.reads (hR : ∀ bits n, R bits n → bits = UInt64.ofNat (Number.widen n))
    (hform : form.Simple)
    (h : FormLaid (fun key w e => Reads d.strict (d.unpack key) e w.viewed) R form v c) :
    Reads d.strict (form.read d) c v.viewed := by
  cases h with
  | scalar h =>
    have hscalar : v.viewed = v := by cases h <;> rfl
    rw [hscalar]
    exact reads_scalar hR h
  | enum h hn => exact reads_enum h hn hform.2
  | cls h => exact h
  | _ => exact hform.elim

lemma Form.Regular.reads (hR : ∀ bits n, R bits n → bits = UInt64.ofNat (Number.widen n))
    (hform : form.Regular)
    (h : FormLaid (fun key w e => Reads d.strict (d.unpack key) e w.viewed) R form v c) :
    Reads d.strict (form.read d) c v.viewed := by
  cases h with
  | @scalar b _ _ h =>
    have hsimple : Form.Simple (.scalar b) := trivial
    exact hsimple.reads hR (.scalar h)
  | enum h hn => exact reads_enum h hn hform.2
  | cls h => exact h
  | @fixedOpaque n bs storage h =>
    subst h
    exact (reads_fixedOpaque bs).bind_pure rfl
  | varOpaque h => exact (reads_varOpaque h).bind_pure rfl
  | string h => exact (reads_string h).bind_pure rfl
  | absent => exact (reads_flag false).bind_pure rfl
  | present _ h =>
    have hitem : Form.Simple _ := hform
    exact (reads_flag true).bind (hitem.reads hR h)
  | @fixedArray n item items c hn h =>
    subst hn
    have hitems := reads_repeated (fun v c hv => hform.2.reads hR hv) h []
    rw [Value.viewed_list]
    exact hitems.bind_pure rfl
  | @array bound item items c hn h =>
    have hitem : item.Simple := hform
    have hitems := reads_repeated (fun v c hv => hitem.reads hR hv) h []
    rw [Value.viewed_list]
    exact (reads_length hn).bind (hitems.bind_pure rfl)

section

variable {I : ClassKey → Value → Cells → Prop}
  (hI : ∀ name, Takes d.strict (d.unpack (.type name)) fun c v => I (.type name) v c)
  (hviewed : ∀ key v c, I key v c → v.viewed = v)

include hI hviewed

lemma Form.Simple.takes (hR : ∀ n, n < 256 ^ 4 → R (UInt64.ofNat (Number.widen n)) n)
    (hform : form.Simple) :
    Takes d.strict (form.read d) fun c v => FormLaid I R form v c ∧ v.viewed = v := by
  match form, hform with
  | .scalar b, _ =>
    refine (takes_scalar hR b).mono fun c v hv => ⟨.scalar hv, ?_⟩
    cases hv <;> rfl
  | .enum (.enum e), _ =>
    refine (takes_enum e).mono ?_
    rintro c v ⟨variant, n, hmem, hn, rfl, rfl⟩
    exact ⟨.enum hmem hn, rfl⟩
  | .cls (.cls (.type name)), _ =>
    exact (hI name).mono fun c v hv => ⟨.cls hv, hviewed _ v c hv⟩

lemma Form.Regular.takes (hR : ∀ n, n < 256 ^ 4 → R (UInt64.ofNat (Number.widen n)) n)
    (hnull : ∀ key v c, I key v c → v.isNull = false) (hform : form.Regular) :
    Takes d.strict (form.read d) fun c v => FormLaid I R form v c ∧ v.viewed = v := by
  match form, hform with
  | .scalar b, _ =>
    have hsimple : Form.Simple (.scalar b) := trivial
    exact hsimple.takes hI hviewed hR
  | .enum m, hform =>
    have hsimple : Form.Simple (.enum m) := hform
    exact hsimple.takes hI hviewed hR
  | .cls m, hform =>
    have hsimple : Form.Simple (.cls m) := hform
    exact hsimple.takes hI hviewed hR
  | .fixedOpaque n, hn =>
    obtain ⟨k, rfl⟩ := Int.eq_ofNat_of_zero_le hn
    refine (takes_fixedOpaque k).bind_last ?_
    rintro c bs ⟨hlength, rfl⟩
    exact Takes.pure ⟨rfl, .fixedOpaque (by exact_mod_cast hlength) (by decide), rfl⟩
  | .varOpaque bound, _ =>
    refine (takes_varOpaque bound).bind_last ?_
    rintro c bs ⟨hlength, rfl⟩
    exact Takes.pure ⟨rfl, .varOpaque hlength (by decide), rfl⟩
  | .string bound, _ =>
    refine (takes_string bound).bind_last ?_
    rintro c s ⟨hlength, rfl⟩
    exact Takes.pure ⟨rfl, .string hlength, rfl⟩
  | .optional item, hitem =>
    refine takes_flag.bind ?_
    rintro c b rfl
    cases b with
    | false => exact Takes.pure ⟨.absent, rfl⟩
    | true =>
      refine (Form.Simple.takes hI hviewed hR hitem).mono ?_
      rintro e v ⟨hv, hview⟩
      refine ⟨.present ?_ hv, hview⟩
      cases hv with
      | scalar h => cases h <;> rfl
      | enum h hn => rfl
      | cls h => exact hnull _ v _ h
      | _ => exact hitem.elim
  | .fixedArray n item, ⟨hn, hitem⟩ =>
    obtain ⟨k, rfl⟩ := Int.eq_ofNat_of_zero_le hn
    refine (takes_repeated (Form.Simple.takes hI hviewed hR hitem) k []).bind_last ?_
    rintro c vs ⟨items, rfl, hlength, hitems, hmap⟩
    refine Takes.pure ⟨rfl, .fixedArray (by exact_mod_cast hlength) hitems, ?_⟩
    rw [Value.viewed_list]
    exact congrArg Value.list hmap
  | .array bound item, hitem =>
    refine (takes_length bound).bind ?_
    rintro c n ⟨hlength, rfl⟩
    refine (takes_repeated (Form.Simple.takes hI hviewed hR hitem) n []).bind ?_
    rintro e vs ⟨items, rfl, rfl, hitems, hmap⟩
    refine Takes.pure ⟨?_, ?_⟩
    · rw [append_nil]
      exact .array hlength hitems
    · rw [Value.viewed_list]
      exact congrArg Value.list hmap

end

end

end Xdr
