import Xdr.Proofs.Codec.Quiet

/-!
# Faults point at the offending bytes

A reader that takes bytes from the front stands in the data: what is before it are the bytes of the
data from its offset on. It remains so as long as bytes are taken.
-/

namespace Xdr

open Wire List

variable {strict : Bool} {n width : Nat} {bound : Option Int}

def StandsAt (data : List UInt8) (start : Int) (bs : List UInt8) : Prop :=
  ∃ before behind, data = before ++ bs ++ behind ∧ start = before.length

lemma StandsAt.within {data bs : List UInt8} {start : Int} (h : StandsAt data start bs) :
    0 ≤ start ∧ start + bs.length ≤ data.length := by
  obtain ⟨before, behind, rfl, rfl⟩ := h
  simp only [length_append]
  omega

/-- A number is stored at a place, in so many bytes, with or without a sign. -/
def StoredAt (data : List UInt8) (start : Int) (width : Nat) (isSigned : Bool) (n : Int) : Prop :=
  ∃ bs, StandsAt data start bs ∧ bs.length = width ∧
    n = if isSigned then signed width (natOfBytes bs) else (natOfBytes bs : Int)

namespace Input

def Stands (i : Input) : Prop := ∃ before, i.data = before ++ i.rest ∧ i.offset = before.length

lemma stands_ofBytes (data : List UInt8) : (ofBytes data).Stands := ⟨[], rfl, rfl⟩

namespace Stands

variable {i j : Input} {bs : List UInt8}

lemma front (h : i.Stands) : 0 ≤ i.offset := by
  obtain ⟨before, -, hoffset⟩ := h
  rw [hoffset]
  exact Int.natCast_nonneg _

lemma total (h : i.Stands) : i.offset + i.rest.length = i.data.length := by
  obtain ⟨before, hdata, hoffset⟩ := h
  rw [hdata, hoffset, length_append]
  push_cast
  rfl

lemma goes (h : i.Stands) (hbs : i.Goes bs j) : j.Stands := by
  obtain ⟨before, hdata, hoffset⟩ := h
  refine ⟨before ++ bs, ?_, ?_⟩
  · rw [hbs.data, hdata, hbs.rest, append_assoc]
  · rw [hbs.offset, hoffset, length_append]
    push_cast
    rfl

lemma standsAt (h : i.Stands) (hbs : i.Goes bs j) : StandsAt i.data i.offset bs := by
  obtain ⟨before, hdata, hoffset⟩ := h
  exact ⟨before, j.rest, by rw [hdata, hbs.rest, append_assoc], hoffset⟩

end Stands

end Input

lemma goes_of_take {i j : Input} {bs : List UInt8} (hi : 0 ≤ i.offset)
    (h : Read.take n i = (.ok bs, j)) : i.Goes bs j ∧ bs.length = n := by
  obtain ⟨data, rest, offset⟩ := i
  obtain ⟨k, rfl⟩ := Int.eq_ofNat_of_zero_le hi
  obtain ⟨hlength, tail, rfl, rfl⟩ := take_eq_ok h
  exact ⟨⟨rfl, rfl, by simp⟩, hlength⟩

lemma goes_of_word {i j : Input} (hi : 0 ≤ i.offset) (h : Read.word width i = (.ok n, j)) :
    ∃ bs, i.Goes bs j ∧ bs.length = width ∧ n = natOfBytes bs := by
  obtain ⟨bs, k, hchunk, hpure⟩ := run_bind_eq_ok.1 h
  cases hpure
  obtain ⟨data, rest, offset⟩ := i
  obtain ⟨k, rfl⟩ := Int.eq_ofNat_of_zero_le hi
  rw [chunk_run] at hchunk
  obtain ⟨hgoes, hlength⟩ := goes_of_take hi hchunk
  exact ⟨bs, hgoes, hlength, rfl⟩

lemma goes_of_length {i j : Input} (hi : 0 ≤ i.offset) (h : Read.length bound i = (.ok n, j)) :
    ∃ bs, i.Goes bs j ∧ bs.length = 4 ∧ n = natOfBytes bs := by
  change (Read.word 4 >>= _) i = _ at h
  obtain ⟨k, mid, hword, hrest⟩ := run_bind_eq_ok.1 h
  have hsame : k = n ∧ mid = j := by
    cases bound with
    | none =>
      cases hrest
      exact ⟨rfl, rfl⟩
    | some b =>
      dsimp only at hrest
      split_ifs at hrest
      · cases hrest
      · cases hrest
        exact ⟨rfl, rfl⟩
  obtain ⟨rfl, rfl⟩ := hsame
  exact goes_of_word hi hword

lemma goes_of_varOpaque {bs : List UInt8} {i j : Input} (hi : 0 ≤ i.offset)
    (h : Read.varOpaque strict bound i = (.ok bs, j)) :
    ∃ head mid, i.Goes (head ++ bs) mid ∧ head.length = 4 ∧ natOfBytes head = bs.length := by
  obtain ⟨n, start, hlength, hrest⟩ := run_bind_eq_ok.1 h
  obtain ⟨cs, mid, htake, hrest⟩ := run_bind_eq_ok.1 hrest
  obtain ⟨⟨⟩, behind, -, hrest⟩ := run_bind_eq_ok.1 hrest
  cases hrest
  obtain ⟨head, hhead, hfour, rfl⟩ := goes_of_length hi hlength
  obtain ⟨hbs, hn⟩ := goes_of_take (hhead.front hi) htake
  exact ⟨head, mid, hhead.trans hbs, hfour, hn.symm⟩

/-- Who may be blamed: whether padding is looked at, the enums that a fault may name, and what the
discriminant of a fault that names a union or an arm is like. -/
structure Blame where
  strict : Bool
  enum : EnumClass → Prop
  union : List UInt8 → String → Int → Int → Prop

/-- The fault tells the truth about the bytes at its offset. -/
def DecodeFault.Points (b : Blame) (data : List UInt8) : DecodeFault → Prop
  | insufficientBytes needed available start =>
    0 ≤ start ∧ 0 ≤ available ∧ start + available = data.length ∧ available < needed
  | unknownDiscriminant union value _ start => b.union data union value start
  | unknownEnumValue enum value start =>
    StoredAt data start 4 true value ∧ ∃ e, b.enum e ∧ enum = Naming.globalName e.name ∧
      ∀ m ∈ e.members, m.2 ≠ value
  | invalidLength length bound start => StoredAt data start 4 false length ∧ bound < length
  | invalidBoolean value start => StoredAt data start 4 true value ∧ value ≠ 0 ∧ value ≠ 1
  | invalidOptionalFlag value start => StoredAt data start 4 false value ∧ 1 < value
  | nonUtf8 reason start => ∃ head bs : List UInt8, StandsAt data start (head ++ bs) ∧
      head.length = 4 ∧ natOfBytes head = bs.length ∧ (∀ s, utf8 s ≠ bs) ∧
      ∃ f, textOfBytes bs = .error f ∧ f.reason = reason
  | invalidPadding start => b.strict = true ∧ ∃ bs : List UInt8, StandsAt data start bs ∧
      0 < bs.length ∧ bs.length < 4 ∧ ∃ x ∈ bs, x ≠ 0

def Pointing {α : Type} (b : Blame) (r : Read α) (i : Input) : Prop :=
  i.Stands → ∀ x j, r i = (x, j) →
    (∃ bs, i.Goes bs j) ∧ ∀ f, x = .error (.decode f) → f.Points b i.data

namespace Pointing

variable {α β : Type} {b : Blame} {i : Input}

lemma pure (a : α) : Pointing b (Pure.pure a : Read α) i := by
  intro _ x j h
  cases h
  exact ⟨⟨[], .refl i⟩, fun _ h => by cases h⟩

lemma throw {g : Fault} (hg : ∀ f, g ≠ .decode f) : Pointing b (throw g : Read α) i := by
  intro _ x j h
  cases h
  exact ⟨⟨[], .refl i⟩, fun f hf => absurd (Except.error.inj hf) (hg f)⟩

lemma fail {f : DecodeFault} (hf : f.Points b i.data) : Pointing b (Read.fail f : Read α) i := by
  intro _ x j h
  cases h
  refine ⟨⟨[], .refl i⟩, fun g hg => ?_⟩
  cases hg
  exact hf

lemma settle {x : Except Fault α} (h : Quiet x) : Pointing b (Unpack.settle x) i := by
  cases x with
  | ok a => exact pure a
  | error g => exact throw fun f hf => h f (congrArg Except.error hf)

lemma bind {x : Read α} {f : α → Read β} (hx : Pointing b x i)
    (hf : ∀ a j bs, i.Stands → x i = (.ok a, j) → i.Goes bs j → Pointing b (f a) j) :
    Pointing b (x >>= f) i := by
  intro hi y k h
  cases hrun : x i with
  | mk result mid =>
    obtain ⟨⟨bs, hbs⟩, hfaults⟩ := hx hi result mid hrun
    cases result with
    | error g =>
      rw [run_bind_of_error hrun] at h
      cases h
      refine ⟨⟨bs, hbs⟩, fun d hd => ?_⟩
      cases hd
      exact hfaults d rfl
    | ok a =>
      rw [run_bind_of_ok hrun] at h
      obtain ⟨⟨cs, hcs⟩, hrest⟩ := hf a mid bs hi hrun hbs (hi.goes hbs) y k h
      exact ⟨⟨bs ++ cs, hbs.trans hcs⟩, fun d hd => hbs.data ▸ hrest d hd⟩

lemma offset {f : Int → Read β} (hf : Pointing b (f i.offset) i) :
    Pointing b (Read.offset >>= f) i := hf

lemma take (n : Nat) : Pointing b (Read.take n) i := by
  intro hi x j h
  cases x with
  | ok bs => exact ⟨⟨bs, (goes_of_take hi.front h).1⟩, fun _ hf => by cases hf⟩
  | error g =>
    have htotal := hi.total
    have hfront := hi.front
    obtain ⟨data, rest, offset⟩ := i
    obtain ⟨k, rfl⟩ := Int.eq_ofNat_of_zero_le hfront
    change (if (rest.take n).length = n then _ else _ : Read _) _ = _ at h
    split at h
    · cases h
    · rename_i hlength
      cases h
      refine ⟨⟨[], .refl _⟩, fun f hf => ?_⟩
      cases hf
      have hshort : rest.length < n := by
        rw [length_take] at hlength
        omega
      exact ⟨hfront, Int.natCast_nonneg _, htotal, Int.ofNat_lt.2 hshort⟩

lemma word (width : Nat) : Pointing b (Read.word width) i := by
  have hchunk : Pointing b (Read.chunk width) i := by
    intro hi x j h
    have hfront := hi.front
    obtain ⟨data, rest, offset⟩ := i
    obtain ⟨k, rfl⟩ := Int.eq_ofNat_of_zero_le hfront
    rw [chunk_run] at h
    exact take width hi x j h
  exact hchunk.bind fun _ _ _ _ _ _ => pure _

lemma word_bind {f : Nat → Read β}
    (hf : ∀ n j bs, i.Goes bs j → StoredAt i.data i.offset width false (n : Nat) →
      Pointing b (f n) j) : Pointing b (Read.word width >>= f) i := by
  refine (word width).bind fun n j bs hi hrun hbs => hf n j bs hbs ?_
  obtain ⟨cs, hcs, hlength, rfl⟩ := goes_of_word hi.front hrun
  exact ⟨cs, hi.standsAt hcs, hlength, rfl⟩

lemma signedWord_bind {f : Int → Read β}
    (hf : ∀ n j bs, i.Goes bs j → StoredAt i.data i.offset width true n → Pointing b (f n) j) :
    Pointing b (Read.signedWord width >>= f) i := by
  have hsplit : Read.signedWord width >>= f = Read.word width >>= fun n => f (signed width n) := by
    rw [Read.signedWord, bind_assoc]
    simp only [pure_bind]
  rw [hsplit]
  refine word_bind fun n j bs hbs hstored => hf _ j bs hbs ?_
  obtain ⟨cs, hstands, hlength, hn⟩ := hstored
  refine ⟨cs, hstands, hlength, ?_⟩
  rw [if_pos rfl, show n = natOfBytes cs by simpa using hn]

lemma bool : Pointing b Read.bool i := by
  refine offset (signedWord_bind fun n j bs hbs hstored => ?_)
  split_ifs with hzero hone
  · exact pure _
  · exact pure _
  · exact fail ⟨hbs.data ▸ hstored, hzero, hone⟩

lemma enum {e : EnumClass} (he : b.enum e) : Pointing b (Read.enum e) i := by
  refine offset (signedWord_bind fun n j bs hbs hstored => ?_)
  split
  · exact pure _
  · rename_i hmember
    refine fail ⟨hbs.data ▸ hstored, e, he, rfl, fun m hm hn => ?_⟩
    rw [member_int] at hmember
    split at hmember
    · cases hmember
    · rename_i hfind
      exact find?_eq_none.1 hfind m hm (by simpa using hn)
  · rename_i f _ hf
    exact throw fun d hd => e.quiet_member _ d (hd ▸ hf)

lemma length (bound : Option Int) : Pointing b (Read.length bound) i := by
  refine offset (word_bind fun n j bs hbs hstored => ?_)
  cases bound with
  | none => exact pure n
  | some bound =>
    dsimp only
    split_ifs with hbound
    · exact fail ⟨hbs.data ▸ hstored, hbound⟩
    · exact pure n

lemma flag : Pointing b Read.flag i := by
  refine offset (word_bind fun n j bs hbs hstored => ?_)
  split_ifs with hzero hone
  · exact pure _
  · exact pure _
  · exact fail ⟨hbs.data ▸ hstored, by omega⟩

lemma scalar (t : Builtin) : Pointing b (Read.scalar t) i := by
  cases t with
  | int => exact signedWord_bind fun _ _ _ _ _ => pure _
  | uint => exact word_bind fun _ _ _ _ _ => pure _
  | hyper => exact signedWord_bind fun _ _ _ _ _ => pure _
  | uhyper | float | double => exact word_bind fun _ _ _ _ _ => pure _
  | bool => exact bool.bind fun _ _ _ _ _ _ => pure _
  | _ => exact throw (by simp)

lemma skipPadding (hstrict : strict → b.strict) (n : Nat) :
    Pointing b (Read.skipPadding strict n) i := by
  unfold Read.skipPadding
  rw [paddingInt_natCast]
  split_ifs with hpadding
  · refine offset ((take _).bind fun bs j _ hi hrun _ => ?_)
    obtain ⟨hbs, hlength⟩ := goes_of_take hi.front hrun
    split_ifs with hany
    · obtain ⟨htrue, hany⟩ := Bool.and_eq_true_iff.1 hany
      obtain ⟨x, hx, hne⟩ := any_eq_true.1 hany
      have hsome : padding n ≠ 0 := by simpa using hpadding
      have hfew := padding_lt n
      exact fail ⟨hstrict htrue, bs, hbs.data ▸ hi.standsAt hbs, by omega, by omega, x, hx,
        by simpa using hne⟩
    · exact pure _
  · exact pure _

lemma fixedOpaque (hstrict : strict → b.strict) (n : Nat) :
    Pointing b (Read.fixedOpaque strict n) i :=
  (take n).bind fun _ _ _ _ _ _ => (skipPadding hstrict n).bind fun _ _ _ _ _ _ => pure _

lemma varOpaque (hstrict : strict → b.strict) (bound : Option Int) :
    Pointing b (Read.varOpaque strict bound) i :=
  (length bound).bind fun n _ _ _ _ _ => fixedOpaque hstrict n

lemma string (hstrict : strict → b.strict) (bound : Option Int) :
    Pointing b (Read.string strict bound) i := by
  refine offset ((varOpaque hstrict bound).bind fun bs j cs hi hrun hcs => ?_)
  cases htext : textOfBytes bs with
  | ok s => exact pure s
  | error f =>
    obtain ⟨head, mid, hgoes, hfour, hhead⟩ := goes_of_varOpaque hi.front hrun
    refine fail ⟨head, bs, hcs.data ▸ hi.standsAt hgoes, hfour, hhead, fun s hs => ?_, f, htext, rfl⟩
    rw [(textOfBytes_eq_ok_iff bs s).2 hs.symm] at htext
    cases htext

end Pointing

end Xdr
