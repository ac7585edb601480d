import Xdr.Proofs.Wire.Cells
import Xdr.Proofs.Wire.Utf8

/-!
# Readers of the wire format

What each reader takes, in both directions: it reads the cells of every value that it may give, and
whatever it gives was read from the cells of that value.
-/

namespace Xdr

open Wire List

open Read (bool chunk fixedOpaque flag length offset signedWord skipPadding string take varOpaque)

variable {bound : Option Int} {bs : List UInt8} {n width : Nat}

namespace Cells

def word (n : Nat) : Cells := ofBytes (bigEndian 4 n)

def number (n : Int) : Cells := ofBytes (signedBytes 4 n)

@[simp] lemma length_word (n : Nat) : (word n).length = 4 := by
  rw [word, length_ofBytes, bigEndian_length]

@[simp] lemma length_number (n : Int) : (number n).length = 4 := by
  rw [number, length_ofBytes, signedBytes_length]

end Cells

/-- A length is a number of four bytes within a bound. -/
def IsLength (bound : Option Int) (n : Nat) : Prop := n < 256 ^ 4 ∧ ∀ b ∈ bound, (n : Int) ≤ b

lemma take_run (bs tail data : List UInt8) (k : Nat) :
    take (bs.length : Nat) ⟨data, bs ++ tail, k⟩ =
      (.ok bs, ⟨data, tail, (k + bs.length : Nat)⟩) := by
  have hchunk : (bs ++ tail).take bs.length = bs := take_left
  have hdrop : (bs ++ tail).drop bs.length = tail := drop_left
  show (if ((bs ++ tail).take bs.length).length = bs.length then _ else _ : Read _) _ = _
  rw [hchunk, hdrop, if_pos rfl]
  rfl

lemma take_eq_ok {k : Nat} {data rest : List UInt8} {after : Input}
    (h : take n ⟨data, rest, k⟩ = (.ok bs, after)) :
    bs.length = n ∧ ∃ tail, rest = bs ++ tail ∧ after = ⟨data, tail, (k + bs.length : Nat)⟩ := by
  change (if (rest.take n).length = n then _ else _ : Read _) _ = _ at h
  split at h
  · rename_i hlength
    cases h
    refine ⟨hlength, rest.drop n, (take_append_drop n rest).symm, ?_⟩
    rw [hlength]
  · cases h

lemma chunk_run (width k : Nat) (data rest : List UInt8) :
    chunk width ⟨data, rest, k⟩ = take width ⟨data, rest, k⟩ := by
  have hget : (get : Read Input) ⟨data, rest, k⟩ = (.ok ⟨data, rest, k⟩, ⟨data, rest, k⟩) := rfl
  unfold chunk
  rw [run_bind_of_ok hget]
  change (take width >>= fun taken => pure taken : Read _) ⟨data, rest, k⟩ = _
  rw [bind_pure]

section

variable {strict : Bool}

lemma reads_take (bs : List UInt8) : Reads strict (take bs.length) (.ofBytes bs) bs := by
  intro xs hxs data tail k
  obtain rfl := Cells.fits_ofBytes_iff.1 hxs
  exact take_run xs tail data k

lemma takes_take (n : Nat) :
    Takes strict (take n) fun cells bs => bs.length = n ∧ cells = .ofBytes bs := by
  intro data rest k bs after h
  obtain ⟨hlength, tail, hrest, hafter⟩ := take_eq_ok h
  exact ⟨.ofBytes bs, bs, tail, Cells.fits_ofBytes_iff.2 rfl, hrest, hafter, hlength, rfl⟩

lemma reads_chunk (h : bs.length = width) : Reads strict (chunk width) (.ofBytes bs) bs := by
  subst h
  intro xs hxs data tail k
  rw [chunk_run]
  exact reads_take bs xs hxs data tail k

lemma takes_chunk (width : Nat) :
    Takes strict (chunk width) fun cells bs => bs.length = width ∧ cells = .ofBytes bs := by
  intro data rest k bs after h
  rw [chunk_run] at h
  exact takes_take width data rest k bs after h

lemma reads_word (h : n < 256 ^ width) :
    Reads strict (Read.word width) (.ofBytes (bigEndian width n)) n := by
  refine (reads_chunk (bigEndian_length width n)).bind_pure ?_
  rw [natOfBytes_bigEndian_of_lt h]

lemma takes_word (width : Nat) :
    Takes strict (Read.word width) fun cells n =>
      n < 256 ^ width ∧ cells = .ofBytes (bigEndian width n) := by
  refine (takes_chunk width).bind_last ?_
  rintro cells bs ⟨hlength, rfl⟩
  exact Takes.pure ⟨rfl, hlength ▸ natOfBytes_lt bs, by rw [bigEndian_natOfBytes hlength]⟩

lemma reads_signedWord {n : Int} (h : FitsSigned width n) :
    Reads strict (signedWord width) (.ofBytes (signedBytes width n)) n := by
  have hword : Reads strict (Read.word width) (.ofBytes (signedBytes width n))
      (natOfBytes (signedBytes width n)) :=
    (reads_chunk (signedBytes_length width n)).bind_pure rfl
  refine hword.bind_pure ?_
  rw [signed_natOfBytes_signedBytes h]

lemma takes_signedWord (width : Nat) :
    Takes strict (signedWord width) fun cells n =>
      FitsSigned width n ∧ cells = .ofBytes (signedBytes width n) := by
  refine (takes_word width).bind_last ?_
  rintro cells n ⟨hn, rfl⟩
  exact Takes.pure ⟨rfl, signed_fits hn, by rw [signedBytes_signed hn]⟩

lemma fitsSigned_toNat (b : Bool) : FitsSigned 4 b.toNat := by
  cases b <;> exact ⟨by decide, by decide⟩

lemma number_toNat (b : Bool) : Cells.number b.toNat = .word b.toNat := by
  cases b <;> rfl

lemma reads_bool (b : Bool) : Reads strict bool (.word b.toNat) b := by
  refine Reads.offset fun start => ?_
  rw [← number_toNat]
  exact (reads_signedWord (fitsSigned_toNat b)).bind_pure (by cases b <;> rfl)

lemma takes_bool : Takes strict bool fun cells b => cells = .word b.toNat := by
  refine Takes.offset fun start => (takes_signedWord 4).bind_last ?_
  rintro cells n ⟨-, rfl⟩
  split_ifs with hzero hone
  · subst hzero
    exact Takes.pure ⟨rfl, rfl⟩
  · subst hone
    exact Takes.pure ⟨rfl, rfl⟩
  · exact Takes.throw _

lemma reads_flag (b : Bool) : Reads strict flag (.word b.toNat) b := by
  refine Reads.offset fun start => ?_
  have hlt : b.toNat < 256 ^ 4 := by cases b <;> decide
  exact (reads_word hlt).bind_pure (by cases b <;> rfl)

lemma takes_flag : Takes strict flag fun cells b => cells = .word b.toNat := by
  refine Takes.offset fun start => (takes_word 4).bind_last ?_
  rintro cells n ⟨-, rfl⟩
  split_ifs with hzero hone
  · subst hzero
    exact Takes.pure ⟨rfl, rfl⟩
  · subst hone
    exact Takes.pure ⟨rfl, rfl⟩
  · exact Takes.throw _

lemma reads_length (h : IsLength bound n) : Reads strict (length bound) (.word n) n := by
  refine Reads.offset fun start => (reads_word h.1).bind_pure ?_
  cases bound with
  | none => rfl
  | some b => exact if_neg (not_lt.2 (h.2 b rfl))

lemma takes_length (bound : Option Int) :
    Takes strict (length bound) fun cells n => IsLength bound n ∧ cells = .word n := by
  refine Takes.offset fun start => (takes_word 4).bind_last ?_
  rintro cells n ⟨hn, rfl⟩
  cases bound with
  | none => exact Takes.pure ⟨rfl, ⟨hn, by simp⟩, rfl⟩
  | some b =>
    dsimp only
    split_ifs with hb
    · exact Takes.throw _
    · exact Takes.pure ⟨rfl, ⟨hn, by simpa using hb⟩, rfl⟩

lemma paddingInt_natCast (n : Nat) : paddingInt n = (padding n : Nat) := by
  simp only [paddingInt, paddedInt, padding, padded]
  omega

lemma offset_run (i : Input) : offset i = (.ok i.offset, i) := rfl

lemma reads_skipPadding (n : Nat) : Reads strict (skipPadding strict n) (.pads n) () := by
  intro bs hbs data tail k
  obtain ⟨hlength, hzero⟩ := Cells.fits_pads_iff.1 hbs
  unfold skipPadding
  rw [paddingInt_natCast]
  split_ifs with hpad
  · have hsound : (strict && bs.any (· != 0)) = false := by
      cases strict with
      | false => rfl
      | true => simpa using hzero rfl
    have htake := take_run bs tail data k
    rw [hlength] at htake
    rw [run_bind_of_ok (offset_run _), run_bind_of_ok htake, hsound, hlength]
    rfl
  · have hnil : bs = [] := length_eq_zero_iff.1 (by rw [hlength]; simpa using hpad)
    subst hnil
    rfl

lemma takes_skipPadding (n : Nat) :
    Takes strict (skipPadding strict n) fun cells _ => cells = .pads n := by
  intro data rest k a after h
  unfold skipPadding at h
  rw [paddingInt_natCast] at h
  split_ifs at h with hpad
  · rw [run_bind_of_ok (offset_run _)] at h
    obtain ⟨bs, mid, htake, hcheck⟩ := run_bind_eq_ok.1 h
    obtain ⟨hlength, tail, hrest, hmid⟩ := take_eq_ok htake
    split_ifs at hcheck with hbad
    · cases hcheck
    · cases hcheck
      refine ⟨.pads n, bs, tail, Cells.fits_pads_iff.2 ⟨hlength, ?_⟩, hrest, hmid, rfl⟩
      rintro rfl
      simpa using hbad
  · cases h
    have hzero : padding n = 0 := by simpa using hpad
    exact ⟨.pads n, [], rest, Cells.fits_pads_iff.2 ⟨hzero.symm, by simp⟩, rfl, rfl, rfl⟩

lemma reads_fixedOpaque (bs : List UInt8) :
    Reads strict (fixedOpaque strict bs.length) (.padded bs) bs :=
  (reads_take bs).bind ((reads_skipPadding bs.length).bind_pure rfl)

lemma takes_fixedOpaque (n : Nat) :
    Takes strict (fixedOpaque strict n) fun cells bs =>
      bs.length = n ∧ cells = .padded bs := by
  refine (takes_take n).bind ?_
  rintro cells bs ⟨rfl, rfl⟩
  refine (takes_skipPadding bs.length).bind_last ?_
  rintro cells ⟨⟩ rfl
  exact Takes.pure ⟨rfl, rfl, rfl⟩

lemma reads_varOpaque (h : IsLength bound bs.length) :
    Reads strict (varOpaque strict bound) (.word bs.length ++ .padded bs) bs :=
  (reads_length h).bind (reads_fixedOpaque bs)

lemma takes_varOpaque (bound : Option Int) :
    Takes strict (varOpaque strict bound) fun cells bs =>
      IsLength bound bs.length ∧ cells = .word bs.length ++ .padded bs := by
  refine (takes_length bound).bind ?_
  rintro cells n ⟨hn, rfl⟩
  refine (takes_fixedOpaque n).mono ?_
  rintro cells bs ⟨rfl, rfl⟩
  exact ⟨hn, rfl⟩

lemma reads_string {s : String} (h : IsLength bound (utf8 s).length) :
    Reads strict (string strict bound)
      (.word (utf8 s).length ++ .padded (utf8 s)) s := by
  refine Reads.offset fun start => (reads_varOpaque h).bind_pure ?_
  rw [(textOfBytes_eq_ok_iff _ s).2 rfl]

lemma takes_string (bound : Option Int) :
    Takes strict (string strict bound) fun cells s =>
      IsLength bound (utf8 s).length ∧ cells = .word (utf8 s).length ++ .padded (utf8 s) := by
  refine Takes.offset fun start => (takes_varOpaque bound).bind_last ?_
  rintro cells bs ⟨hbs, rfl⟩
  cases htext : textOfBytes bs with
  | error f => exact Takes.throw _
  | ok s =>
    obtain rfl := (textOfBytes_eq_ok_iff bs s).1 htext
    exact Takes.pure ⟨rfl, hbs, rfl⟩

end

/-! ## Readers that look no further than they go -/

variable {bs : List UInt8} {i j : Input} {width : Nat}

namespace Input

structure Goes (i : Input) (bs : List UInt8) (j : Input) : Prop where
  data : j.data = i.data
  rest : i.rest = bs ++ j.rest
  offset : j.offset = i.offset + bs.length

lemma Goes.refl (i : Input) : i.Goes [] i := ⟨rfl, rfl, by simp⟩

lemma Goes.trans {k : Input} {cs : List UInt8} (h : i.Goes bs j) (h' : j.Goes cs k) :
    i.Goes (bs ++ cs) k where
  data := h'.data.trans h.data
  rest := by rw [h.rest, h'.rest, append_assoc]
  offset := by
    rw [h'.offset, h.offset, length_append]
    push_cast
    omega

lemma Goes.front (h : i.Goes bs j) (hi : 0 ≤ i.offset) : 0 ≤ j.offset := by
  rw [h.offset]
  omega

lemma Goes.length (h : i.Goes bs j) : i.rest.length = bs.length + j.rest.length := by
  rw [h.rest, length_append]

lemma Goes.total (h : i.Goes bs j) : j.offset + j.rest.length = i.offset + i.rest.length := by
  have hlength := h.length
  have hoffset := h.offset
  omega

/-- The same place in other data, with bytes behind the input. -/
def extend (i : Input) (data tail : List UInt8) : Input := ⟨data, i.rest ++ tail, i.offset⟩

end Input

def Fault.IsShort (total : Int) (f : Fault) : Prop :=
  ∃ needed available offset : Int, f = .decode (.insufficientBytes needed available offset) ∧
    offset + available = total ∧ available < needed

structure Local {α : Type} (r : Read α) : Prop where
  goes : ∀ {i j : Input} {a : α}, 0 ≤ i.offset → r i = (.ok a, j) → ∃ bs, i.Goes bs j
  ok : ∀ {i j : Input} {a : α}, 0 ≤ i.offset → r i = (.ok a, j) →
    ∀ data tail, r (i.extend data tail) = (.ok a, j.extend data tail)
  error : ∀ {i j : Input} {f : Fault}, 0 ≤ i.offset → r i = (.error f, j) →
    f.IsShort (i.offset + i.rest.length) ∨
      ∀ data tail, ∃ j', r (i.extend data tail) = (.error f, j')

structure Aligned {α : Type} (r : Read α) : Prop where
  words : ∀ {i j : Input} {a : α}, 0 ≤ i.offset → r i = (.ok a, j) → ∃ bs, i.Goes bs j ∧ 4 ∣ bs.length

structure Orderly {α : Type} (r : Read α) : Prop extends Local r, Aligned r

lemma run_bind_eq_error {ε σ α β : Type} {x : ExceptT ε (StateM σ) α}
    {f : α → ExceptT ε (StateM σ) β} {s t : σ} {e : ε} (h : (x >>= f) s = (.error e, t)) :
    x s = (.error e, t) ∨ ∃ a u, x s = (.ok a, u) ∧ f a u = (.error e, t) := by
  cases hx : x s with
  | mk r u =>
    cases r with
    | ok a =>
      rw [run_bind_of_ok hx] at h
      exact .inr ⟨a, u, rfl, h⟩
    | error e' =>
      rw [run_bind_of_error hx] at h
      cases h
      exact .inl rfl

section

variable {α β : Type}

namespace Local

lemma pure (a : α) : Local (Pure.pure a : Read α) where
  goes _ h := by
    cases h
    exact ⟨[], .refl _⟩
  ok _ h := by
    cases h
    exact fun _ _ => rfl
  error _ h := by cases h

lemma throw (f : Fault) : Local (throw f : Read α) where
  goes _ h := by cases h
  ok _ h := by cases h
  error _ h := by
    cases h
    exact .inr fun _ _ => ⟨_, rfl⟩

lemma bind {x : Read α} {f : α → Read β} (hx : Local x) (hf : ∀ a, Local (f a)) :
    Local (x >>= f) where
  goes hi h := by
    obtain ⟨a, mid, hxrun, hfrun⟩ := run_bind_eq_ok.1 h
    obtain ⟨bs, hbs⟩ := hx.goes hi hxrun
    obtain ⟨cs, hcs⟩ := (hf a).goes (hbs.front hi) hfrun
    exact ⟨bs ++ cs, hbs.trans hcs⟩
  ok hi h data tail := by
    obtain ⟨a, mid, hxrun, hfrun⟩ := run_bind_eq_ok.1 h
    obtain ⟨bs, hbs⟩ := hx.goes hi hxrun
    rw [run_bind_of_ok (hx.ok hi hxrun data tail), (hf a).ok (hbs.front hi) hfrun data tail]
  error hi h := by
    rcases run_bind_eq_error h with hxrun | ⟨a, mid, hxrun, hfrun⟩
    · rcases hx.error hi hxrun with hshort | hmore
      · exact .inl hshort
      · refine .inr fun data tail => ?_
        obtain ⟨j', hrun⟩ := hmore data tail
        exact ⟨j', run_bind_of_error hrun⟩
    · obtain ⟨bs, hbs⟩ := hx.goes hi hxrun
      rcases (hf a).error (hbs.front hi) hfrun with hshort | hmore
      · exact .inl (hbs.total ▸ hshort)
      · refine .inr fun data tail => ?_
        obtain ⟨j', hrun⟩ := hmore data tail
        exact ⟨j', by rw [run_bind_of_ok (hx.ok hi hxrun data tail), hrun]⟩

lemma offset {f : Int → Read β} (hf : ∀ n, Local (f n)) : Local (offset >>= f) where
  goes {i _ _} hi h := (hf i.offset).goes hi h
  ok {i _ _} hi h := (hf i.offset).ok hi h
  error {i _ _} hi h := (hf i.offset).error hi h

end Local

namespace Aligned

lemma pure (a : α) : Aligned (Pure.pure a : Read α) where
  words _ h := by
    cases h
    exact ⟨[], .refl _, by simp⟩

lemma throw (f : Fault) : Aligned (throw f : Read α) where
  words _ h := by cases h

lemma bind {x : Read α} {f : α → Read β} (hx : Aligned x) (hf : ∀ a, Aligned (f a)) :
    Aligned (x >>= f) where
  words hi h := by
    obtain ⟨a, mid, hxrun, hfrun⟩ := run_bind_eq_ok.1 h
    obtain ⟨bs, hbs, hdvd⟩ := hx.words hi hxrun
    obtain ⟨cs, hcs, hdvd'⟩ := (hf a).words (hbs.front hi) hfrun
    refine ⟨bs ++ cs, hbs.trans hcs, ?_⟩
    rw [length_append]
    exact Nat.dvd_add hdvd hdvd'

lemma offset {f : Int → Read β} (hf : ∀ n, Aligned (f n)) : Aligned (offset >>= f) where
  words {i _ _} hi h := (hf i.offset).words hi h

end Aligned

lemma Takes.aligned {strict : Bool} {r : Read α} {P : Cells → α → Prop} (h : Takes strict r P)
    (hP : ∀ c a, P c a → 4 ∣ c.length) : Aligned r where
  words {i j a} hi hrun := by
    obtain ⟨data, rest, offset⟩ := i
    obtain ⟨k, rfl⟩ := Int.eq_ofNat_of_zero_le hi
    obtain ⟨cells, bs, tail, hfits, rfl, rfl, hcells⟩ := h data rest k a j hrun
    refine ⟨bs, ⟨rfl, rfl, by simp⟩, ?_⟩
    rw [hfits.length_eq]
    exact hP cells a hcells

namespace Orderly

lemma pure (a : α) : Orderly (Pure.pure a : Read α) := ⟨.pure a, .pure a⟩

lemma throw (f : Fault) : Orderly (throw f : Read α) := ⟨.throw f, .throw f⟩

lemma bind {x : Read α} {f : α → Read β} (hx : Orderly x) (hf : ∀ a, Orderly (f a)) :
    Orderly (x >>= f) :=
  ⟨hx.toLocal.bind fun a => (hf a).toLocal, hx.toAligned.bind fun a => (hf a).toAligned⟩

lemma offset {f : Int → Read β} (hf : ∀ n, Orderly (f n)) : Orderly (offset >>= f) :=
  ⟨.offset fun n => (hf n).toLocal, .offset fun n => (hf n).toAligned⟩

end Orderly

def Safe (r : Read α) (i : Input) : Prop :=
  ∀ f j, r i = (.error f, j) → ∃ g, f = .decode g

lemma Safe.pure (a : α) (i : Input) : Safe (Pure.pure a : Read α) i := by
  intro f j h
  cases h

lemma Safe.fail (g : DecodeFault) (i : Input) : Safe (Read.fail g : Read α) i := by
  intro f j h
  cases h
  exact ⟨g, rfl⟩

lemma Safe.bind {x : Read α} {f : α → Read β} {i : Input} (hx : Safe x i)
    (hf : ∀ a j, x i = (.ok a, j) → Safe (f a) j) : Safe (x >>= f) i := by
  intro g j h
  rcases run_bind_eq_error h with hrun | ⟨a, k, hrun, hrest⟩
  · exact hx g j hrun
  · exact hf a k hrun g j hrest

/-- An orderly reader that blames nothing but the bytes. -/
structure Steady (r : Read α) : Prop extends Orderly r where
  safe : ∀ {i : Input}, 0 ≤ i.offset → Safe r i

namespace Steady

lemma pure (a : α) : Steady (Pure.pure a : Read α) := ⟨.pure a, fun _ => .pure a _⟩

lemma fail (g : DecodeFault) : Steady (Read.fail g : Read α) := ⟨.throw _, fun _ => .fail g _⟩

lemma bind {x : Read α} {f : α → Read β} (hx : Steady x) (hf : ∀ a, Steady (f a)) :
    Steady (x >>= f) where
  toOrderly := hx.toOrderly.bind fun a => (hf a).toOrderly
  safe hi := (hx.safe hi).bind fun a j hrun => by
    obtain ⟨bs, hbs⟩ := hx.goes hi hrun
    exact (hf a).safe (hbs.front hi)

lemma offset {f : Int → Read β} (hf : ∀ n, Steady (f n)) : Steady (offset >>= f) :=
  ⟨.offset fun n => (hf n).toOrderly, fun {i} hi => (hf i.offset).safe hi⟩

end Steady

end

lemma local_take (n : Nat) : Local (take n) where
  goes {i j bs} hi h := by
    obtain ⟨data, rest, offset⟩ := i
    obtain ⟨k, rfl⟩ := Int.eq_ofNat_of_zero_le hi
    obtain ⟨-, tail, rfl, rfl⟩ := take_eq_ok h
    exact ⟨bs, rfl, rfl, by simp⟩
  ok {i j bs} hi h data' tail := by
    obtain ⟨data, rest, offset⟩ := i
    obtain ⟨k, rfl⟩ := Int.eq_ofNat_of_zero_le hi
    obtain ⟨rfl, left, rfl, rfl⟩ := take_eq_ok h
    rw [Input.extend, Input.extend, append_assoc]
    exact take_run bs (left ++ tail) data' k
  error {i j f} hi h := by
    obtain ⟨data, rest, offset⟩ := i
    obtain ⟨k, rfl⟩ := Int.eq_ofNat_of_zero_le hi
    change (if (rest.take n).length = n then _ else _ : Read _) _ = _ at h
    split at h
    · cases h
    · rename_i hlength
      cases h
      rw [length_take] at hlength
      exact .inl ⟨n, rest.length, k, rfl, rfl, by omega⟩

lemma local_chunk (width : Nat) : Local (chunk width) := by
  have hrun : ∀ i : Input, 0 ≤ i.offset → chunk width i = take width i := by
    rintro ⟨data, rest, offset⟩ hi
    obtain ⟨k, rfl⟩ := Int.eq_ofNat_of_zero_le hi
    exact chunk_run width k data rest
  constructor
  · intro i j a hi h
    rw [hrun i hi] at h
    exact (local_take width).goes hi h
  · intro i j a hi h data tail
    rw [hrun i hi] at h
    rw [hrun (i.extend data tail) hi]
    exact (local_take width).ok hi h data tail
  · intro i j f hi h
    rw [hrun i hi] at h
    refine ((local_take width).error hi h).imp_right fun hmore data tail => ?_
    rw [hrun (i.extend data tail) hi]
    exact hmore data tail

lemma local_skipPadding (strict : Bool) (n : Nat) : Local (skipPadding strict n) := by
  unfold skipPadding
  rw [paddingInt_natCast]
  split_ifs
  · refine Local.offset fun start => (local_take _).bind fun padding => ?_
    split_ifs
    · exact .throw _
    · exact .pure ()
  · exact .pure ()

lemma safe_take (n : Nat) {i : Input} (hi : 0 ≤ i.offset) : Safe (take n) i := by
  obtain ⟨data, rest, offset⟩ := i
  obtain ⟨k, rfl⟩ := Int.eq_ofNat_of_zero_le hi
  intro f j h
  change (if (rest.take n).length = n then _ else _ : Read _) _ = _ at h
  split at h
  · cases h
  · cases h
    exact ⟨_, rfl⟩

lemma safe_skipPadding (strict : Bool) (n : Nat) {i : Input} (hi : 0 ≤ i.offset) :
    Safe (skipPadding strict n) i := by
  unfold skipPadding
  rw [paddingInt_natCast]
  split_ifs
  · refine Safe.bind (fun f j h => by cases h) fun start j hstart => ?_
    cases hstart
    refine (safe_take _ hi).bind fun padding k _ => ?_
    split_ifs
    · exact .fail _ k
    · exact .pure () k
  · exact .pure () i

namespace Steady

lemma word (h : 4 ∣ width) : Steady (Read.word width) where
  toLocal := (local_chunk width).bind fun _ => .pure _
  toAligned := by
    have htakes : Takes false (Read.word width) _ := takes_word width
    refine htakes.aligned ?_
    rintro cells n ⟨-, rfl⟩
    rwa [Cells.length_ofBytes, bigEndian_length]
  safe {i} hi := by
    refine Safe.bind (fun f j hrun => ?_) fun _ k _ => .pure _ k
    obtain ⟨data, rest, offset⟩ := i
    obtain ⟨k, rfl⟩ := Int.eq_ofNat_of_zero_le hi
    rw [chunk_run] at hrun
    exact safe_take width hi f j hrun

lemma signedWord (h : 4 ∣ width) : Steady (signedWord width) :=
  (word h).bind fun _ => .pure _

lemma bool : Steady bool := by
  refine .offset fun start => (signedWord (by decide)).bind fun n => ?_
  split_ifs
  · exact .pure false
  · exact .pure true
  · exact .fail _

lemma length (bound : Option Int) : Steady (length bound) := by
  refine .offset fun start => (word (by decide)).bind fun n => ?_
  cases bound with
  | none => exact .pure n
  | some b =>
    dsimp only
    split_ifs
    · exact .fail _
    · exact .pure n

lemma flag : Steady flag := by
  refine .offset fun start => (word (by decide)).bind fun n => ?_
  split_ifs
  · exact .pure false
  · exact .pure true
  · exact .fail _

lemma scalar {b : Builtin} (hb : b ∉ [.quadruple, .opaqueBytes, .string, .void]) :
    Steady (Read.scalar b) := by
  cases b with
  | int | hyper => exact (signedWord (by decide)).bind fun _ => .pure _
  | uint | uhyper | float | double => exact (word (by decide)).bind fun _ => .pure _
  | bool => exact bool.bind fun _ => .pure _
  | _ => simp at hb

lemma fixedOpaque (strict : Bool) (n : Nat) : Steady (fixedOpaque strict n) where
  toLocal := (local_take n).bind fun _ => (local_skipPadding strict n).bind fun _ => .pure _
  toAligned := by
    refine (takes_fixedOpaque n).aligned ?_
    rintro cells bs ⟨-, rfl⟩
    exact Cells.dvd_padded bs
  safe hi := by
    refine (safe_take n hi).bind fun bs j hrun => ?_
    obtain ⟨cs, hcs⟩ := (local_take n).goes hi hrun
    exact (safe_skipPadding strict n (hcs.front hi)).bind fun _ k _ => .pure _ k

lemma varOpaque (strict : Bool) (bound : Option Int) : Steady (varOpaque strict bound) :=
  (length bound).bind fun n => fixedOpaque strict n

lemma string (strict : Bool) (bound : Option Int) : Steady (string strict bound) := by
  refine .offset fun start => (varOpaque strict bound).bind fun bs => ?_
  cases textOfBytes bs with
  | ok s => exact .pure s
  | error f => exact .fail _

end Steady

namespace Orderly

lemma enum (e : EnumClass) : Orderly (Read.enum e) := by
  refine .offset fun start => (Steady.signedWord (by decide)).toOrderly.bind fun n => ?_
  cases e.member (.int n) with
  | ok v => exact .pure v
  | error f => cases f <;> exact .throw _

lemma scalar (b : Builtin) : Orderly (Read.scalar b) := by
  cases b with
  | quadruple | opaqueBytes | string | void => exact .throw _
  | _ => exact (Steady.scalar (by decide)).toOrderly

variable {item : Read Value}

lemma optional (h : Orderly item) : Orderly (Read.optional item) := by
  refine Steady.flag.toOrderly.bind fun b => ?_
  cases b with
  | true => exact h
  | false => exact .pure _

lemma repeated (h : Orderly item) (n : Nat) (done : List Value) :
    Orderly (Read.repeated item n done) := by
  induction n generalizing done with
  | zero => exact .pure _
  | succ n ih => exact h.bind fun v => ih (v :: done)

lemma fixedArray (n : Int) (h : Orderly item) : Orderly (Read.fixedArray n item) :=
  (h.repeated n.toNat []).bind fun _ => .pure _

lemma array (bound : Option Int) (h : Orderly item) : Orderly (Read.array bound item) :=
  (Steady.length bound).toOrderly.bind fun n => h.fixedArray n

end Orderly

end Xdr
