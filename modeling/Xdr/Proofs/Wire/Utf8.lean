import Mathlib
import Xdr.Wire.Utf8

/-!
# Texts and their bytes

Reading bytes as a text is the inverse of writing a text as bytes: it accepts exactly the bytes of
texts, and gives the text that they are of.
-/

namespace Xdr.Wire

open List

variable {b : UInt8} {check : UInt8 → Bool} {n : Nat} {c : Char} {more rest : List UInt8}

lemma toNat_continuation (n : Nat) : (continuation n).toNat = 0x80 + n % 64 := by
  rw [continuation, UInt8.toNat_ofNat']
  omega

lemma isContinuation_continuation (n : Nat) : isContinuation (continuation n) := by
  rw [isContinuation, toNat_continuation]
  simp only [Bool.and_eq_true, decide_eq_true_eq]
  omega

lemma eq_continuation (h : isContinuation b) (n : Nat) (hn : n % 64 = b.toNat % 64) :
    continuation n = b := by
  simp only [isContinuation, Bool.and_eq_true, decide_eq_true_eq] at h
  apply UInt8.toNat_inj.1
  rw [toNat_continuation]
  omega

lemma toNat_ofNat_of_valid (h : n.isValidChar) : (Char.ofNat n).toNat = n := by
  rw [Char.toNat, Char.ofNat, dif_pos h]
  rfl

lemma isSecond_iff (a b : UInt8) :
    isSecond a b ↔ isContinuation b ∧
      (a.toNat = 0xE0 → 0xA0 ≤ b.toNat) ∧ (a.toNat = 0xED → b.toNat < 0xA0) ∧
      (a.toNat = 0xF0 → 0x90 ≤ b.toNat) ∧ (a.toNat = 0xF4 → b.toNat < 0x90) := by
  unfold isSecond isContinuation
  simp only [Bool.and_eq_true, decide_eq_true_eq]
  split <;> simp only [Bool.and_eq_true, decide_eq_true_eq, imp_false] at * <;> omega

lemma sequenceWidth_cases (b : UInt8) :
    (b.toNat < 0x80 ∧ sequenceWidth b = 1) ∨
      (0xC2 ≤ b.toNat ∧ b.toNat < 0xE0 ∧ sequenceWidth b = 2) ∨
      (0xE0 ≤ b.toNat ∧ b.toNat < 0xF0 ∧ sequenceWidth b = 3) ∨
      (0xF0 ≤ b.toNat ∧ b.toNat < 0xF5 ∧ sequenceWidth b = 4) ∨ sequenceWidth b = 0 := by
  unfold sequenceWidth
  simp only
  split_ifs <;> omega

lemma sequenceWidth_eq :
    (b.toNat < 0x80 → sequenceWidth b = 1) ∧
      (0xC2 ≤ b.toNat → b.toNat < 0xE0 → sequenceWidth b = 2) ∧
      (0xE0 ≤ b.toNat → b.toNat < 0xF0 → sequenceWidth b = 3) ∧
      (0xF0 ≤ b.toNat → b.toNat < 0xF5 → sequenceWidth b = 4) := by
  unfold sequenceWidth
  simp only
  split_ifs <;> omega

lemma further_eq_ok {missing done : Nat}
    (h : further check (missing + 1) done n rest = .ok (c, more)) :
    ∃ b tail, rest = b :: tail ∧ check b ∧
      further isContinuation missing (done + 1) (n * 64 + b.toNat % 64) tail = .ok (c, more) := by
  cases rest with
  | nil => cases h
  | cons b tail =>
    rw [further] at h
    split at h
    · exact ⟨b, tail, rfl, by assumption, h⟩
    · cases h

lemma further_map (ns : List Nat) (hcheck : ∀ m ∈ ns.head?, check (continuation m)) (done n : Nat)
    (more : List UInt8) : further check ns.length done n (ns.map continuation ++ more) =
      .ok (Char.ofNat (ns.foldl (fun n m => n * 64 + m % 64) n), more) := by
  induction ns generalizing check done n with
  | nil => rfl
  | cons m ns ih =>
    have hlow : (continuation m).toNat % 64 = m % 64 := by
      rw [toNat_continuation]
      omega
    rw [length_cons, map_cons, cons_append, further, if_pos (hcheck m rfl), hlow]
    exact ih (fun _ _ => isContinuation_continuation _) _ _

lemma ofNat_eq (h : n = b.toNat) : UInt8.ofNat n = b := by
  rw [h, UInt8.ofNat_toNat]

lemma utf8Char_eq (c : Char) :
    (c.toNat < 0x80 → utf8Char c = [UInt8.ofNat c.toNat]) ∧
      (0x80 ≤ c.toNat → c.toNat < 0x800 →
        utf8Char c = [UInt8.ofNat (0xC0 + c.toNat / 64), continuation c.toNat]) ∧
      (0x800 ≤ c.toNat → c.toNat < 0x10000 →
        utf8Char c = [UInt8.ofNat (0xE0 + c.toNat / 4096), continuation (c.toNat / 64),
          continuation c.toNat]) ∧
      (0x10000 ≤ c.toNat →
        utf8Char c = [UInt8.ofNat (0xF0 + c.toNat / 262144), continuation (c.toNat / 4096),
          continuation (c.toNat / 64), continuation c.toNat]) := by
  unfold utf8Char
  simp only
  split_ifs <;> refine ⟨?_, ?_, ?_, ?_⟩ <;> intros <;> first | rfl | omega

lemma utf8Char_of_firstChar (h : firstChar b rest = .ok (c, more)) :
    b :: rest = utf8Char c ++ more := by
  unfold firstChar at h
  rcases sequenceWidth_cases b with
    ⟨hb, hw⟩ | ⟨hlow, hhigh, hw⟩ | ⟨hlow, hhigh, hw⟩ | ⟨hlow, hhigh, hw⟩ | hw
  · simp only [hw, firstBits, further, Except.ok.injEq, Prod.mk.injEq] at h
    obtain ⟨rfl, rfl⟩ := h
    have hn := toNat_ofNat_of_valid (n := b.toNat) (.inl (by omega))
    rw [(utf8Char_eq _).1 (by omega), hn, UInt8.ofNat_toNat]
    rfl
  · simp only [hw, firstBits] at h
    obtain ⟨b₁, rest, rfl, h₁, h⟩ := further_eq_ok h
    simp only [further, Except.ok.injEq, Prod.mk.injEq] at h
    obtain ⟨rfl, rfl⟩ := h
    obtain ⟨hb₁, -⟩ := (isSecond_iff b b₁).1 h₁
    have hn := toNat_ofNat_of_valid (n := (b.toNat - 0xC0) * 64 + b₁.toNat % 64) (.inl (by omega))
    rw [(utf8Char_eq _).2.1 (by omega) (by omega), hn, ofNat_eq (b := b) (by omega),
      eq_continuation hb₁ _ (by omega)]
    rfl
  · simp only [hw, firstBits] at h
    obtain ⟨b₁, rest, rfl, h₁, h⟩ := further_eq_ok h
    obtain ⟨b₂, rest, rfl, hb₂, h⟩ := further_eq_ok h
    simp only [further, Except.ok.injEq, Prod.mk.injEq] at h
    obtain ⟨rfl, rfl⟩ := h
    obtain ⟨hb₁, he0, hed, -, -⟩ := (isSecond_iff b b₁).1 h₁
    have hr₁ := hb₁
    simp only [isContinuation, Bool.and_eq_true, decide_eq_true_eq] at hr₁
    have hn := toNat_ofNat_of_valid
      (n := ((b.toNat - 0xE0) * 64 + b₁.toNat % 64) * 64 + b₂.toNat % 64) (by
        rw [Nat.isValidChar]
        omega)
    rw [(utf8Char_eq _).2.2.1 (by omega) (by omega), hn, ofNat_eq (b := b) (by omega),
      eq_continuation hb₁ _ (by omega), eq_continuation hb₂ _ (by omega)]
    rfl
  · simp only [hw, firstBits] at h
    obtain ⟨b₁, rest, rfl, h₁, h⟩ := further_eq_ok h
    obtain ⟨b₂, rest, rfl, hb₂, h⟩ := further_eq_ok h
    obtain ⟨b₃, rest, rfl, hb₃, h⟩ := further_eq_ok h
    simp only [further, Except.ok.injEq, Prod.mk.injEq] at h
    obtain ⟨rfl, rfl⟩ := h
    obtain ⟨hb₁, -, -, hf0, hf4⟩ := (isSecond_iff b b₁).1 h₁
    have hr₁ := hb₁
    simp only [isContinuation, Bool.and_eq_true, decide_eq_true_eq] at hr₁
    have hn := toNat_ofNat_of_valid
      (n := (((b.toNat - 0xF0) * 64 + b₁.toNat % 64) * 64 + b₂.toNat % 64) * 64 + b₃.toNat % 64)
      (.inr ⟨by omega, by omega⟩)
    rw [(utf8Char_eq _).2.2.2 (by omega), hn, ofNat_eq (b := b) (by omega),
      eq_continuation hb₁ _ (by omega), eq_continuation hb₂ _ (by omega),
      eq_continuation hb₃ _ (by omega)]
    rfl
  · simp only [hw] at h
    cases h

lemma toNat_valid (c : Char) : c.toNat < 0xD800 ∨ 0xDFFF < c.toNat ∧ c.toNat < 0x110000 :=
  c.valid

lemma firstChar_lead (ns : List Nat) (more : List UInt8)
    (hc : utf8Char c = b :: ns.map continuation) (hw : sequenceWidth b = ns.length + 1)
    (hs : ∀ m ∈ ns.head?, isSecond b (continuation m))
    (hn : ns.foldl (fun n m => n * 64 + m % 64) (firstBits b) = c.toNat) :
    ∃ b rest, utf8Char c ++ more = b :: rest ∧ firstChar b rest = .ok (c, more) := by
  refine ⟨b, ns.map continuation ++ more, by rw [hc, cons_append], ?_⟩
  simp only [firstChar, hw]
  rw [further_map ns hs, hn, Char.ofNat_toNat]

lemma firstChar_utf8Char (c : Char) (more : List UInt8) :
    ∃ b rest, utf8Char c ++ more = b :: rest ∧ firstChar b rest = .ok (c, more) := by
  have hvalid := toNat_valid c
  have hlead : ∀ k < 256, (UInt8.ofNat k).toNat = k := fun k hk => by
    rw [UInt8.toNat_ofNat']
    omega
  rcases Nat.lt_or_ge c.toNat 0x80 with h₁ | h₁
  · have hb := hlead c.toNat (by omega)
    have hw := (sequenceWidth_eq (b := UInt8.ofNat c.toNat)).1 (by omega)
    exact firstChar_lead [] more ((utf8Char_eq c).1 h₁) hw (by simp)
      (by simp only [firstBits, hw, hb, foldl_nil])
  rcases Nat.lt_or_ge c.toNat 0x800 with h₂ | h₂
  · have hc := (utf8Char_eq c).2.1 h₁ h₂
    have hb := hlead (0xC0 + c.toNat / 64) (by omega)
    generalize UInt8.ofNat (0xC0 + c.toNat / 64) = b at hc hb
    have hw := (sequenceWidth_eq (b := b)).2.1 (by omega) (by omega)
    refine firstChar_lead [c.toNat] more hc hw (fun m hm => ?_) ?_
    · cases hm
      exact (isSecond_iff _ _).2 ⟨isContinuation_continuation _, by omega, by omega, by omega, by omega⟩
    · simp only [firstBits, hw, foldl_cons, foldl_nil]
      omega
  rcases Nat.lt_or_ge c.toNat 0x10000 with h₃ | h₃
  · have hc := (utf8Char_eq c).2.2.1 h₂ h₃
    have hb := hlead (0xE0 + c.toNat / 4096) (by omega)
    generalize UInt8.ofNat (0xE0 + c.toNat / 4096) = b at hc hb
    have hw := (sequenceWidth_eq (b := b)).2.2.1 (by omega) (by omega)
    have hsecond := toNat_continuation (c.toNat / 64)
    refine firstChar_lead [c.toNat / 64, c.toNat] more hc hw (fun m hm => ?_) ?_
    · cases hm
      exact (isSecond_iff _ _).2 ⟨isContinuation_continuation _, by omega, by omega, by omega, by omega⟩
    · simp only [firstBits, hw, foldl_cons, foldl_nil]
      omega
  · have hc := (utf8Char_eq c).2.2.2 h₃
    have hb := hlead (0xF0 + c.toNat / 262144) (by omega)
    generalize UInt8.ofNat (0xF0 + c.toNat / 262144) = b at hc hb
    have hw := (sequenceWidth_eq (b := b)).2.2.2 (by omega) (by omega)
    have hsecond := toNat_continuation (c.toNat / 4096)
    refine firstChar_lead [c.toNat / 4096, c.toNat / 64, c.toNat] more hc hw (fun m hm => ?_) ?_
    · cases hm
      exact (isSecond_iff _ _).2 ⟨isContinuation_continuation _, by omega, by omega, by omega, by omega⟩
    · simp only [firstBits, hw, foldl_cons, foldl_nil]
      omega

lemma readText_eq_ok (n : Nat) :
    ∀ place done bs cs, bs.length ≤ n → readText n place done bs = .ok cs →
      ∃ ds, cs = done.reverse ++ ds ∧ bs = ds.flatMap utf8Char := by
  induction n with
  | zero =>
    intro place done bs cs hlength h
    have hnil : bs = [] := length_eq_zero_iff.1 (by omega)
    cases h
    exact ⟨[], by simp, by simp [hnil]⟩
  | succ n ih =>
    intro place done bs cs hlength h
    cases bs with
    | nil =>
      cases h
      exact ⟨[], by simp, rfl⟩
    | cons b rest =>
      rw [readText] at h
      split at h
      · cases h
      · rename_i c more hfirst
        have hbytes := utf8Char_of_firstChar hfirst
        have hpos : 0 < (utf8Char c).length := by
          unfold utf8Char
          simp only
          split_ifs <;> simp
        have hshort : more.length ≤ n := by
          have := congrArg List.length hbytes
          simp only [length_cons, length_append] at this hlength
          omega
        obtain ⟨ds, rfl, rfl⟩ := ih _ _ _ _ hshort h
        exact ⟨c :: ds, by simp, by rw [hbytes, flatMap_cons]⟩

lemma readText_flatMap (cs : List Char) :
    ∀ n place done, cs.length ≤ n →
      readText n place done (cs.flatMap utf8Char) = .ok (done.reverse ++ cs) := by
  induction cs with
  | nil =>
    intro n place done _
    cases n <;> simp [readText]
  | cons c rest ih =>
    intro n place done hlength
    cases n with
    | zero => simp at hlength
    | succ n =>
      obtain ⟨b, more, hbytes, hfirst⟩ := firstChar_utf8Char c (rest.flatMap utf8Char)
      rw [flatMap_cons, hbytes, readText, hfirst]
      simp only
      rw [ih n _ _ (by simpa using hlength)]
      simp

lemma length_le_flatMap (cs : List Char) : cs.length ≤ (cs.flatMap utf8Char).length := by
  induction cs with
  | nil => simp
  | cons c rest ih =>
    obtain ⟨b, more, hbytes, -⟩ := firstChar_utf8Char c []
    have hpos := congrArg List.length hbytes
    simp only [append_nil, length_cons] at hpos
    rw [flatMap_cons, length_append, length_cons]
    omega

lemma textOfBytes_eq_ok_iff (bs : List UInt8) (s : String) :
    textOfBytes bs = .ok s ↔ bs = utf8 s := by
  constructor
  · intro h
    unfold textOfBytes at h
    cases hread : readText bs.length 0 [] bs with
    | error f =>
      rw [hread] at h
      cases h
    | ok cs =>
      rw [hread] at h
      cases h
      obtain ⟨ds, rfl, hbytes⟩ := readText_eq_ok bs.length 0 [] bs cs le_rfl hread
      simpa [utf8] using hbytes
  · rintro rfl
    have hread := readText_flatMap s.toList (utf8 s).length 0 [] (length_le_flatMap s.toList)
    rw [textOfBytes]
    unfold utf8 at hread ⊢
    rw [hread]
    simp [Except.map]

end Xdr.Wire
