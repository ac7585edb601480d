import Xdr.Number.Literal
import Xdr.Proofs.Lexing
import Mathlib.Data.Nat.Digits.Defs

/-!
# Numerals of a text

The digits of a numeral count by their places, in the base that it is written in. A numeral has a
value unless it is an octal one with a digit too large, or has more digits than are read.
-/

namespace Xdr.Number

open List

open Lexer (IsDigits IsLexeme isDigit isHexDigit)

open Nat (toDigits)

variable {cs ds : List Char} {base : Nat} {c d : Char} {n : Nat} {text : String} {x : Char}

def digitOf (c : Char) : Nat := (hexValue? c).getD 0

def valueOf (base : Nat) (ds : List Char) : Nat := ds.foldl (fun n c => n * base + digitOf c) 0

/-- The number that a numeral without its sign stands for: hexadecimal after a mark, octal behind a
nought, and decimal otherwise. -/
def numeral : List Char → Nat
  | '0' :: x :: rest =>
    if x = 'x' ∨ x = 'X' then valueOf 16 rest else valueOf 8 ('0' :: x :: rest)
  | cs => valueOf 10 cs

/-- The number that a literal stands for, up to its sign. -/
def sizeOfLiteral (text : String) : Nat :=
  match text.toList with
  | '-' :: rest => numeral rest
  | cs => numeral cs

/-- The digit that a character stands for, small or capital. -/
def place (c : Char) : Nat := "0123456789abcdef".toList.idxOf c.toLower

/-- The base that a numeral without its sign is written in, and its digits. -/
def reading : List Char → Nat × List Char
  | '0' :: x :: ds => if x = 'x' ∨ x = 'X' then (16, ds) else (8, '0' :: x :: ds)
  | ds => (10, ds)

/-- Every digit counts by its place in the base. -/
def positional (cs : List Char) : Nat :=
  Nat.ofDigits (reading cs).1 ((reading cs).2.reverse.map place)

def unsigned : List Char → List Char
  | '-' :: ds => ds
  | ds => ds

/-- What is answered for a numeral without its sign when `v` is its value. -/
def answer (cs : List Char) (v : Int) : Except LiteralFault Int :=
  if (reading cs).1 = 8 ∧ ('8' ∈ cs ∨ '9' ∈ cs) then .error .octalDigit
  else if (reading cs).1 = 10 ∧ maxDecimalDigits < (reading cs).2.length then .error .malformed
  else .ok v

/-- A value behind the sign of its literal. -/
def signed (cs : List Char) (v : Int) : Int := if cs.head? = some '-' then -v else v

/-- The spelling of a number in a base, with its sign and the mark of the base in front. -/
def spelled (mark : List Char) (base : Nat) (n : Int) : String :=
  String.ofList ((if n < 0 then ['-'] else []) ++ (mark ++ Nat.toDigits base n.natAbs))

structure DigitFacts (c : Char) : Prop where
  spacing : isSpacing c = false
  others : c ∉ ['-', '+', '_', 'x', 'X', 'o', 'O']
  value : hexValue? c = some (digitOf c)
  hexadecimal : digitOf c < 16
  decimal : isDigit c = true → digitOf c < 10
  octal : isDigit c = true → c ≠ '8' → c ≠ '9' → digitOf c < 8
  positive : c ≠ '0' → 0 < digitOf c
  index : digitOf c = place c

def digitChecked (c : Char) : Bool :=
  !isSpacing c && !(['-', '+', '_', 'x', 'X', 'o', 'O'].contains c) &&
    hexValue? c == some (digitOf c) && digitOf c < 16 &&
    (!isDigit c || digitOf c < 10) &&
    (!isDigit c || c == '8' || c == '9' || digitOf c < 8) && (c == '0' || 0 < digitOf c) &&
    digitOf c == place c

lemma digitFacts (h : isHexDigit c) : DigitFacts c := by
  have hall : ∀ n < 128, isHexDigit (Char.ofNat n) → digitChecked (Char.ofNat n) := by
    decide +kernel
  have hsmall : c.toNat < 128 := by
    simp only [isHexDigit, isDigit, Bool.or_eq_true, Bool.and_eq_true, decide_eq_true_eq,
      Char.le_def, UInt32.le_iff_toNat_le, Char.reduceVal, UInt32.reduceToNat] at h
    show c.val.toNat < 128
    omega
  have hc := hall c.toNat hsmall
  rw [Char.ofNat_toNat] at hc
  have hchecked := hc h
  simp only [digitChecked, Bool.and_eq_true, Bool.or_eq_true, Bool.not_eq_true', beq_iff_eq,
    decide_eq_true_eq] at hchecked
  obtain ⟨⟨⟨⟨⟨⟨⟨h₁, h₂⟩, h₃⟩, h₄⟩, h₅⟩, h₆⟩, h₇⟩, h₈⟩ := hchecked
  constructor <;> grind

lemma isHexDigit_of_isDigit (h : isDigit c) : isHexDigit c := by
  simp [isHexDigit, h]

lemma readDigits?_eq (hdigits : ∀ c ∈ ds, isHexDigit c)
    (hbase : ∀ c ∈ ds, digitOf c < base) (acc : Nat) :
    readDigits? base acc ds = some (ds.foldl (fun n c => n * base + digitOf c) acc) := by
  induction ds generalizing acc with
  | nil => rfl
  | cons c ds ih =>
    have hvalue : digitValue? c = some (digitOf c) := by
      simp [digitValue?, (digitFacts (hdigits c (.head _))).value]
    rw [readDigits?, hvalue]
    simp only [hbase c (.head _), if_true, foldl_cons]
    exact ih (fun x hx => hdigits x (.tail c hx))
      (fun x hx => hbase x (.tail c hx)) _

lemma dropUnderscores?_eq (h : ∀ c ∈ ds, c ≠ '_') : dropUnderscores? ds = some ds := by
  fun_induction dropUnderscores? ds with
  | case1 => rfl
  | case2 rest => exact absurd rfl (h '_' (.head _))
  | case3 c hc => rfl
  | case4 | case5 => exact absurd rfl (h '_' (by simp))
  | case6 c d rest _ _ ih =>
    rw [ih (fun x hx => h x (.tail c hx))]
    rfl

lemma trimBlanks_eq (h : ∀ c ∈ ds, isSpacing c = false) : trimBlanks ds = ds := by
  have hleft : ∀ ds : List Char, (∀ c ∈ ds, isSpacing c = false) → ds.dropWhile isSpacing = ds := by
    intro ds h
    cases ds with
    | nil => rfl
    | cons c ds => rw [dropWhile_cons_of_neg (by simp [h c (.head _)])]
  rw [trimBlanks, hleft ds h, hleft _ (by simpa using h), reverse_reverse]

lemma dropBasePrefix_eq (h : ∀ c ∈ ds, c ∉ ['-', '+', '_', 'x', 'X', 'o', 'O']) :
    dropBasePrefix base ds = ds := by
  match ds with
  | [] | [_] => rfl
  | c :: x :: rest =>
    have hx := h x (by simp)
    simp only [mem_cons, not_or] at hx
    simp [dropBasePrefix, hx]

lemma readInteger?_eq (hdigits : ∀ x ∈ c :: ds, isHexDigit x)
    (hbase : ∀ x ∈ c :: ds, digitOf x < base) :
    readInteger? base (c :: ds) =
      if base = 10 ∧ maxDecimalDigits < ds.length + 1 then none
      else some (valueOf base (c :: ds) : Int) := by
  have hmarks : ∀ x ∈ c :: ds, x ∉ ['-', '+', '_', 'x', 'X', 'o', 'O'] :=
    fun x hx => (digitFacts (hdigits x hx)).others
  have hsign := hmarks c (.head _)
  simp only [mem_cons, not_or] at hsign
  have htrim : trimBlanks (c :: ds) = c :: ds :=
    trimBlanks_eq fun x hx => (digitFacts (hdigits x hx)).spacing
  have hdrop : dropUnderscores? (c :: ds) = some (c :: ds) :=
    dropUnderscores?_eq fun x hx => by
      rintro rfl
      exact hmarks _ hx (by simp)
  have hread : readNatural? base (c :: ds) =
      if base = 10 ∧ maxDecimalDigits < ds.length + 1 then none
      else some (valueOf base (c :: ds)) := by
    rw [readNatural?, hdrop]
    simp only [Bool.and_eq_true, decide_eq_true_eq, readDigits?_eq hdigits hbase]
    rfl
  unfold readInteger?
  rw [htrim]
  split
  · rename_i heq
    exact absurd (List.cons.inj heq).1 hsign.1
  · rename_i heq
    exact absurd (List.cons.inj heq).1 hsign.2.1
  · rw [dropBasePrefix_eq hmarks, hread]
    split <;> rfl

lemma valueOf_eq (h : ∀ c ∈ ds, isHexDigit c) :
    valueOf base ds = Nat.ofDigits base (ds.reverse.map place) := by
  have hplace : ds.reverse.map digitOf = ds.reverse.map place :=
    map_congr_left fun c hc => (digitFacts (h c (List.mem_reverse.1 hc))).index
  rw [← hplace, Nat.ofDigits_eq_foldr, List.foldr_map, List.foldr_reverse, valueOf]
  simp only [Nat.cast_id, Nat.mul_comm, Nat.add_comm]

lemma reading_of_ne (h : ∀ x rest, cs ≠ '0' :: x :: rest) : reading cs = (10, cs) := by
  unfold reading
  split
  · exact absurd rfl (h _ _)
  · rfl

lemma pow_le_valueOf (h : ∀ x ∈ c :: ds, isHexDigit x) (hc : c ≠ '0') :
    base ^ ds.length ≤ valueOf base (c :: ds) := by
  have hfacts := digitFacts (h c (.head _))
  have hpos : 0 < place c := hfacts.index ▸ hfacts.positive hc
  rw [valueOf_eq h, reverse_cons, map_append, map_singleton, Nat.ofDigits_append,
    Nat.ofDigits_singleton, length_map, List.length_reverse]
  exact (Nat.le_mul_of_pos_right _ hpos).trans (Nat.le_add_left _ _)

/-- What is known of a numeral without its sign. -/
structure Understood (cs : List Char) : Prop where
  value : numeral cs = positional cs
  answered : magnitude cs = answer cs (positional cs)
  large : (reading cs).1 = 10 → maxDecimalDigits < (reading cs).2.length →
    10 ^ maxDecimalDigits ≤ numeral cs

lemma understood_hexadecimal (mark : x = 'x' ∨ x = 'X')
    (all : ∀ y ∈ d :: ds, isHexDigit y) : Understood ('0' :: x :: d :: ds) := by
  have hreading : reading ('0' :: x :: d :: ds) = (16, d :: ds) := by simp [reading, mark]
  have hread := readInteger?_eq all fun y hy => (digitFacts (all y hy)).hexadecimal
  refine ⟨?_, ?_, by simp [hreading]⟩
  · simp [numeral, positional, hreading, mark, valueOf_eq all]
  · simp [magnitude, answer, positional, hreading, mark, hread, valueOf_eq all]

lemma understood_octal (all : ∀ y ∈ '0' :: x :: ds, isDigit y) :
    Understood ('0' :: x :: ds) := by
  have hhex : ∀ y ∈ '0' :: x :: ds, isHexDigit y := fun y hy =>
    isHexDigit_of_isDigit (all y hy)
  have hx : ¬(x = 'x' ∨ x = 'X') := by
    have hothers := (digitFacts (hhex x (by simp))).others
    grind
  have hreading : reading ('0' :: x :: ds) = (8, '0' :: x :: ds) := if_neg hx
  refine ⟨?_, ?_, by simp [hreading]⟩
  · simp only [numeral, positional, hreading, hx, if_false, valueOf_eq hhex]
  · have hmark : (x = 'x' || x = 'X') = false := by simpa using hx
    have hany : ('0' :: x :: ds).any (fun c => c = '8' || c = '9') =
        decide ('8' ∈ '0' :: x :: ds ∨ '9' ∈ '0' :: x :: ds) := by
      rw [Bool.eq_iff_iff]
      grind
    by_cases hlarge : '8' ∈ '0' :: x :: ds ∨ '9' ∈ '0' :: x :: ds
    · simp only [magnitude, answer, hreading, hmark, hany, hlarge, decide_true, if_true, true_and,
        Bool.false_eq_true, if_false]
    · have hread := readInteger?_eq hhex fun y hy =>
        (digitFacts (hhex y hy)).octal (all y hy) (by grind) (by grind)
      simp [magnitude, answer, positional, hreading, hmark, hany, hread, valueOf_eq hhex]

lemma understood_decimal (all : ∀ y ∈ d :: ds, isDigit y)
    (hne : ∀ x rest, d :: ds ≠ '0' :: x :: rest) : Understood (d :: ds) := by
  have hhex : ∀ y ∈ d :: ds, isHexDigit y := fun y hy => isHexDigit_of_isDigit (all y hy)
  have hnumeral : numeral (d :: ds) = valueOf 10 (d :: ds) := by
    unfold numeral
    split <;> simp_all
  have hread := readInteger?_eq hhex fun y hy => (digitFacts (hhex y hy)).decimal (all y hy)
  refine ⟨?_, ?_, fun _ hlong => ?_⟩
  · rw [hnumeral, positional, reading_of_ne hne, valueOf_eq hhex]
  · have hmagnitude : magnitude (d :: ds) =
        (readInteger? 10 (d :: ds)).elim (.error .malformed) .ok := by
      unfold magnitude
      split
      · exact absurd ‹_› (hne _ _)
      · cases hread : readInteger? 10 (d :: ds) <;> simp [hread]
    rw [hmagnitude, answer, positional, reading_of_ne hne, hread, valueOf_eq hhex]
    by_cases hlong : maxDecimalDigits < ds.length + 1 <;> simp [hlong]
  · rw [reading_of_ne hne, length_cons] at hlong
    have hd : d ≠ '0' := by
      -- a nought would stand alone, and the numeral is long
      rintro rfl
      have hmore : 0 < ds.length := by
        rw [maxDecimalDigits] at hlong
        omega
      obtain ⟨x, rest, rfl⟩ := List.exists_cons_of_length_pos hmore
      exact hne x rest rfl
    rw [hnumeral]
    exact (Nat.pow_le_pow_right (by omega) (by omega)).trans (pow_le_valueOf hhex hd)

lemma understood (h : IsDigits cs) : Understood cs := by
  cases h with
  | hexadecimal mark all => exact understood_hexadecimal mark all
  | @decimal d ds all =>
    by_cases hnought : ∃ x rest, d :: ds = '0' :: x :: rest
    · obtain ⟨x, rest, heq⟩ := hnought
      rw [heq] at all ⊢
      exact understood_octal all
    · exact understood_decimal all fun x rest heq => hnought ⟨x, rest, heq⟩

lemma unsigned_of_isDigits (h : IsDigits cs) :
    unsigned cs = cs ∧ ∀ v : Int, signed cs v = v := by
  have hsign : ∀ rest, cs ≠ '-' :: rest := by
    rintro rest rfl
    exact absurd h.opening (by decide)
  constructor
  · unfold unsigned
    split <;> grind
  · exact fun v => if_neg fun hhead => by
      obtain ⟨rest, hrest⟩ := head?_eq_some_iff.1 hhead
      exact hsign rest hrest

lemma parseLiteral_eq (h : IsLexeme (.token .number) text.toList) :
    IsDigits (unsigned text.toList) ∧ sizeOfLiteral text = numeral (unsigned text.toList) ∧
      parseLiteral text = answer (unsigned text.toList)
        (signed text.toList (positional (unsigned text.toList))) := by
  rw [parseLiteral, sizeOfLiteral]
  generalize text.toList = cs at h
  cases h with
  | spelled spelling => cases spelling
  | negative digits =>
    refine ⟨digits, rfl, ?_⟩
    simp only [(understood digits).answered, answer, unsigned, signed, head?_cons, if_true]
    split_ifs <;> rfl
  | number digits =>
    obtain ⟨hsame, hvalue⟩ := unsigned_of_isDigits digits
    rw [hsame, hvalue, ← (understood digits).answered]
    refine ⟨digits, ?_, ?_⟩ <;> split <;> simp_all [unsigned]

lemma natAbs_signed (cs : List Char) (n : Nat) : (signed cs n).natAbs = n := by
  unfold signed
  split <;> simp

lemma parseLiteral_cases (h : IsLexeme (.token .number) text.toList) :
    (∃ v, parseLiteral text = .ok v ∧ v.natAbs = sizeOfLiteral text) ∨
      parseLiteral text = .error .octalDigit ∨
      (parseLiteral text = .error .malformed ∧ 10 ^ maxDecimalDigits ≤ sizeOfLiteral text) := by
  obtain ⟨hdigits, hsize, hparse⟩ := parseLiteral_eq h
  rw [hsize, hparse, answer]
  split_ifs with hoctal hlong
  · exact .inr (.inl rfl)
  · exact .inr (.inr ⟨rfl, (understood hdigits).large hlong.1 hlong.2⟩)
  · exact .inl ⟨_, rfl, by rw [(understood hdigits).value, natAbs_signed]⟩

lemma place_digitChar : ∀ d < 16, place d.digitChar = d ∧ isHexDigit d.digitChar ∧
    (d < 10 → isDigit d.digitChar) := by
  decide +kernel

lemma mem_toDigits (hbase : 1 < base) (hc : c ∈ toDigits base n) :
    ∃ d < base, c = d.digitChar := by
  induction n using Nat.strong_induction_on with
  | _ n ih =>
    rw [Nat.toDigits_eq_if hbase] at hc
    split at hc
    · exact ⟨n, ‹_›, mem_singleton.1 hc⟩
    · obtain hc | hc := mem_append.1 hc
      · exact ih (n / base) (Nat.div_lt_self (by omega) hbase) hc
      · exact ⟨n % base, Nat.mod_lt _ (by omega), mem_singleton.1 hc⟩

lemma isDigit_of_mem (hbase : 1 < base) (hle : base ≤ 10)
    (hc : c ∈ toDigits base n) : isDigit c := by
  obtain ⟨d, hd, rfl⟩ := mem_toDigits hbase hc
  exact (place_digitChar d (by omega)).2.2 (by omega)

lemma toDigits_eq_cons (base n : Nat) : ∃ d ds, toDigits base n = d :: ds :=
  exists_cons_of_ne_nil Nat.toDigits_ne_nil

lemma ofDigits_toDigits (hbase : 1 < base) (hle : base ≤ 16) (n : Nat) :
    Nat.ofDigits base ((toDigits base n).reverse.map place) = n := by
  induction n using Nat.strong_induction_on with
  | _ n ih =>
    rw [Nat.toDigits_eq_if hbase]
    split
    · simp [place_digitChar n (by omega)]
    · have hmod := Nat.mod_lt n (by omega : base > 0)
      rw [reverse_append, map_append, List.reverse_singleton, map_singleton,
        singleton_append, Nat.ofDigits_cons, ih _ (Nat.div_lt_self (by omega) hbase),
        (place_digitChar _ (by omega)).1, Nat.mod_add_div]

/-- Only nought is spelled with a nought in front. -/
lemma eq_nil_of_toDigits (hbase : 1 < base) (hle : base ≤ 16)
    (h : toDigits base n = '0' :: ds) : ds = [] := by
  induction n using Nat.strong_induction_on generalizing ds with
  | _ n ih =>
    rw [Nat.toDigits_eq_if hbase] at h
    split at h
    · exact (List.cons.inj h).2.symm
    · rename_i hlarge
      have hpos : 0 < n / base := Nat.div_pos (by omega) (by omega)
      obtain ⟨d, more, heq⟩ := toDigits_eq_cons base (n / base)
      rw [heq] at h
      obtain rfl := (List.cons.inj h).1
      have hvalue := ofDigits_toDigits hbase hle (n / base)
      rw [heq, ih _ (Nat.div_lt_self (by omega) hbase) heq] at hvalue
      exact absurd hvalue (by simpa [place] using hpos.ne)

lemma parseLiteral_spelled {mark : List Char} {n : Int}
    (hdigits : IsDigits (mark ++ toDigits base n.natAbs))
    (hok : ∀ v, answer (mark ++ toDigits base n.natAbs) v = .ok v)
    (hvalue : positional (mark ++ toDigits base n.natAbs) = n.natAbs) :
    parseLiteral (spelled mark base n) = .ok n := by
  by_cases hn : n < 0
  · have htext : (spelled mark base n).toList = '-' :: (mark ++ toDigits base n.natAbs) := by
      simp [spelled, hn]
    have hlexeme : IsLexeme (.token .number) (spelled mark base n).toList :=
      htext ▸ .negative hdigits
    rw [(parseLiteral_eq hlexeme).2.2, htext, unsigned, hok, hvalue]
    exact congrArg Except.ok (by rw [signed, head?_cons, if_pos rfl]; omega)
  · have htext : (spelled mark base n).toList = mark ++ toDigits base n.natAbs := by
      simp [spelled, hn]
    have hlexeme : IsLexeme (.token .number) (spelled mark base n).toList :=
      htext ▸ .number hdigits
    obtain ⟨hsame, hsigned⟩ := unsigned_of_isDigits hdigits
    rw [(parseLiteral_eq hlexeme).2.2, htext, hsame, hok, hsigned, hvalue]
    exact congrArg Except.ok (by omega)

lemma parseLiteral_decimal {n : Int} (h : isWritable n) :
    parseLiteral (spelled [] 10 n) = .ok n := by
  have hreading : reading (toDigits 10 n.natAbs) = (10, toDigits 10 n.natAbs) :=
    reading_of_ne fun x rest heq => by simpa using eq_nil_of_toDigits (by decide) (by decide) heq
  have hlength : (toDigits 10 n.natAbs).length ≤ maxDecimalDigits :=
    (Nat.length_toDigits_le_iff (by decide) (by decide)).2 (of_decide_eq_true h)
  have hdigits : IsDigits (toDigits 10 n.natAbs) := by
    obtain ⟨d, ds, heq⟩ := toDigits_eq_cons 10 n.natAbs
    exact heq ▸ .decimal fun c hc => isDigit_of_mem (by decide) (by decide) (heq ▸ hc)
  refine parseLiteral_spelled hdigits (fun v => by simp [answer, hreading, hlength]) ?_
  simp only [positional, nil_append, hreading]
  exact ofDigits_toDigits (by decide) (by decide) _

lemma parseLiteral_octal (n : Int) : parseLiteral (spelled ['0'] 8 n) = .ok n := by
  obtain ⟨d, ds, heq⟩ := toDigits_eq_cons 8 n.natAbs
  have hall : ∀ c ∈ '0' :: toDigits 8 n.natAbs, isDigit c := by
    rintro c (_ | ⟨_, hc⟩)
    · decide
    · exact isDigit_of_mem (by decide) (by decide) hc
  have hd := (digitFacts (isHexDigit_of_isDigit (hall d (by simp [heq])))).others
  have hreading : reading ('0' :: toDigits 8 n.natAbs) = (8, '0' :: toDigits 8 n.natAbs) := by
    rw [heq]
    simp_all [reading]
  have hlarge : '8' ∉ toDigits 8 n.natAbs ∧ '9' ∉ toDigits 8 n.natAbs := by
    constructor <;> intro hc <;> obtain ⟨d, hd, hchar⟩ := mem_toDigits (by decide) hc
    · exact absurd (Nat.eight_eq_digitChar.1 hchar) hd.ne
    · exact absurd (Nat.nine_eq_digitChar.1 hchar) (by omega)
  refine parseLiteral_spelled (.decimal hall) (fun v => by simp [answer, hreading, hlarge]) ?_
  simp only [positional, singleton_append, hreading]
  simpa [Nat.ofDigits_append, place] using ofDigits_toDigits (by decide) (by decide) _

lemma parseLiteral_hexadecimal (hx : x = 'x' ∨ x = 'X') (n : Int) :
    parseLiteral (spelled ['0', x] 16 n) = .ok n := by
  have hreading : reading ('0' :: x :: toDigits 16 n.natAbs) =
      (16, toDigits 16 n.natAbs) := by
    simp [reading, hx]
  have hdigits : IsDigits ('0' :: x :: toDigits 16 n.natAbs) := by
    obtain ⟨d, ds, heq⟩ := toDigits_eq_cons 16 n.natAbs
    exact heq ▸ .hexadecimal hx fun c hc => by
      obtain ⟨d, hd, rfl⟩ := mem_toDigits (by decide) (heq ▸ hc)
      exact (place_digitChar d hd).2.1
  refine parseLiteral_spelled hdigits (fun v => by simp [answer, hreading]) ?_
  simp only [positional, cons_append, nil_append, hreading]
  exact ofDigits_toDigits (by decide) (by decide) _

/-- A numeral is refused for its digits exactly if it is octal and has an eight or a nine. Any other
is the number that its digits give by their places, negated behind a sign, unless it is decimal and
has more digits than are read. So every spelling of a number is read as that number. -/
theorem literals_exact :
    (∀ text : String, IsLexeme (.token .number) text.toList →
      let ds := unsigned text.toList
      parseLiteral text =
        if (reading ds).1 = 8 ∧ ('8' ∈ ds ∨ '9' ∈ ds) then .error .octalDigit
        else if (reading ds).1 = 10 ∧ maxDecimalDigits < (reading ds).2.length then
          .error .malformed
        else .ok (if text.toList.head? = some '-' then -(positional ds : Int) else positional ds)) ∧
    ∀ n : Int, (isWritable n = true → parseLiteral (spelled [] 10 n) = .ok n) ∧
      parseLiteral (spelled ['0'] 8 n) = .ok n ∧
      ∀ x ∈ ['x', 'X'], parseLiteral (spelled ['0', x] 16 n) = .ok n :=
  ⟨fun _ h => (parseLiteral_eq h).2.2, fun n => ⟨parseLiteral_decimal, parseLiteral_octal n,
    fun _ hx => parseLiteral_hexadecimal (by simpa using hx) n⟩⟩

theorem literals_exact_negative :
    IsLexeme (.token .number) "-0x1F".toList ∧ parseLiteral "-0x1F" = .ok (-31) ∧
      isWritable (-42) = true ∧ parseLiteral (spelled [] 10 (-42)) = .ok (-42) := by
  have hlexeme : IsLexeme (.token .number) "-0x1F".toList :=
    .negative (.hexadecimal (.inl rfl) (all_eq_true.1 (by decide)))
  have hwritable : isWritable (-42) := by decide +kernel
  exact ⟨hlexeme, (literals_exact.1 _ hlexeme).trans (by decide +kernel), hwritable,
    (literals_exact.2 _).1 hwritable⟩

end Xdr.Number
