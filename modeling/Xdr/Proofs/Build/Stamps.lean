import Xdr.Build
import Xdr.Proofs.Wire.Utf8

/-!
# Stamps read back

The record that is read from the text of a stamp is that of the stamp: a text is read as it was
written, a number too unless it has more digits than are read, and then there is no record.
-/

namespace Xdr.Build

open List

variable {c : Char} {n : Nat}

namespace Json

lemma hexValue?_hexDigit (n : Nat) :
    Number.hexValue? (Text.hexDigit n) = some (n % 16) := by
  have hall : ∀ d < 16, Number.hexValue? (Nat.digitChar d) = some d := by decide
  exact hall (n % 16) (Nat.mod_lt n (by decide))

lemma hexFour?_hexPadded (h : n < 0x10000) (rest : List Char) :
    hexFour? (Text.hexPadded 4 n ++ rest) = some (n, rest) := by
  have hlast : n / 16 / 16 / 16 < 16 := by omega
  simp only [Text.hexPadded, nil_append, cons_append, hexFour?,
    hexValue?_hexDigit, Option.bind_eq_bind, Option.bind_some, Option.pure_def]
  congr 2
  omega

lemma readText_unitEscape (h : n < 0x10000) (fuel : Nat) (done : List Nat) (half : Bool)
    (rest : List Char) :
    readText (fuel + 1) done half (unitEscape n ++ rest) =
      readText fuel (addEscape n half done)
        (!(half && 0xdc00 ≤ n && n ≤ 0xdfff) && 0xd800 ≤ n && n ≤ 0xdbff) rest := by
  simp only [unitEscape, cons_append, readText, hexFour?_hexPadded h, Option.bind_eq_bind,
    Option.bind_some]

lemma readText_plain (hmark : c ≠ '"') (hescape : c ≠ '\\') (hspace : 0x20 ≤ c.toNat) (fuel : Nat)
    (done : List Nat) (half : Bool) (rest : List Char) :
    readText (fuel + 1) done half (c :: rest) = readText fuel (c.toNat :: done) false rest := by
  have hnot : ¬ c.toNat < 0x20 := by omega
  rw [readText.eq_6 _ _ _ _ _ (by simpa using hmark) (by simp [hescape]) (by simp [hescape])]
  simp [hescape, hnot]

lemma readText_escape (h : escaped? c = some n) (fuel : Nat) (done : List Nat) (half : Bool)
    (rest : List Char) :
    readText (fuel + 1) done half ('\\' :: c :: rest) = readText fuel (n :: done) false rest := by
  have hc : c ≠ 'u' := by
    rintro rfl
    cases h
  rw [readText.eq_5 _ _ _ _ _ (by simpa using hc), h]
  rfl

lemma readText_writeChar (c : Char) (done : List Nat) (rest : List Char) :
    ∃ steps ≤ (writeChar c).length, ∀ fuel,
      readText (fuel + steps) done false (writeChar c ++ rest) =
        readText fuel (c.toNat :: done) false rest := by
  unfold writeChar
  dsimp only
  split_ifs with hmark hn hr ht hb hf hplain hsmall
  · refine ⟨1, by simp, fun fuel => readText_escape ?_ fuel done false rest⟩
    rcases (by simpa using hmark : c = '"' ∨ c = '\\') with rfl | rfl <;> rfl
  · exact ⟨1, by simp, fun fuel => hn ▸ readText_escape rfl fuel done false rest⟩
  · exact ⟨1, by simp, fun fuel => hr ▸ readText_escape rfl fuel done false rest⟩
  · exact ⟨1, by simp, fun fuel => ht ▸ readText_escape rfl fuel done false rest⟩
  · exact ⟨1, by simp, fun fuel => readText_escape (hb ▸ rfl) fuel done false rest⟩
  · exact ⟨1, by simp, fun fuel => readText_escape (hf ▸ rfl) fuel done false rest⟩
  · simp only [Bool.or_eq_true, decide_eq_true_eq, not_or] at hmark
    simp only [Bool.and_eq_true, decide_eq_true_eq] at hplain
    exact ⟨1, by simp, fun fuel => readText_plain hmark.1 hmark.2 hplain.1 fuel done false rest⟩
  · refine ⟨1, by simp [unitEscape], fun fuel => ?_⟩
    have hvalid := Wire.toNat_valid c
    have hhalf : (decide (0xd800 ≤ c.toNat) && decide (c.toNat ≤ 0xdbff)) = false := by
      simp only [Bool.and_eq_false_iff, decide_eq_false_iff_not]
      omega
    rw [readText_unitEscape hsmall]
    simp only [Bool.false_and, Bool.not_false, Bool.true_and, hhalf]
    cases done <;> rfl
  · refine ⟨2, by simp [unitEscape, Text.hexPadded_length], fun fuel => ?_⟩
    have hvalid := Wire.toNat_valid c
    generalize hhigh : 0xd800 + (c.toNat - 0x10000) / 0x400 = high
    generalize hlow : 0xdc00 + (c.toNat - 0x10000) % 0x400 = low
    have hfirst : (decide (0xd800 ≤ high) && decide (high ≤ 0xdbff)) := by
      simp only [Bool.and_eq_true, decide_eq_true_eq]
      omega
    have hsecond : (decide (0xdc00 ≤ low) && decide (low ≤ 0xdfff)) := by
      simp only [Bool.and_eq_true, decide_eq_true_eq]
      omega
    have hjoined : 0x10000 + (high - 0xd800) * 0x400 + (low - 0xdc00) = c.toNat := by omega
    have hdone : addEscape high false done = high :: done := by cases done <;> rfl
    rw [append_assoc, show fuel + 2 = fuel + 1 + 1 from rfl, readText_unitEscape (by omega),
      readText_unitEscape (by omega), hdone]
    simp only [Bool.false_and, Bool.not_false, Bool.true_and, hfirst, hsecond, addEscape,
      Bool.not_true, if_true, hjoined]

lemma readText_written (cs : List Char) :
    ∀ (fuel : Nat) (done : List Nat) (rest : List Char), (cs.flatMap writeChar).length < fuel →
      readText fuel done false (cs.flatMap writeChar ++ '"' :: rest) =
        some (done.reverse ++ cs.map (·.toNat), rest) := by
  induction cs with
  | nil =>
    intro fuel done rest hfuel
    obtain ⟨n, rfl⟩ := Nat.exists_eq_add_of_lt hfuel
    simp [readText]
  | cons c cs ih =>
    intro fuel done rest hfuel
    simp only [List.flatMap_cons, List.length_append] at hfuel
    obtain ⟨steps, hsteps, hread⟩ := readText_writeChar c done (cs.flatMap writeChar ++ '"' :: rest)
    obtain ⟨n, rfl⟩ : ∃ n, fuel = n + steps := ⟨fuel - steps, by omega⟩
    rw [flatMap_cons, append_assoc, hread, ih n _ rest (by omega)]
    simp

lemma toList_writeText (s : String) :
    (writeText s).toList = '"' :: (s.toList.flatMap writeChar ++ ['"']) := by
  simp [writeText]

lemma writeCodes_codes (s : String) : writeCodes (codes s) = writeText s := by
  have hcode : ∀ c : Char, writeCode c.toNat = writeChar c := by
    intro c
    rw [writeCode, if_pos (show c.toNat.isValidChar from c.valid), Char.ofNat_toNat]
  simp only [writeCodes, writeText, codes, flatMap_map, hcode]

lemma readValue_writeText (s : String) (fuel : Nat) (rest : List Char) :
    readValue (fuel + 1) ((writeText s).toList ++ rest) = some (.text (codes s), rest) := by
  rw [toList_writeText, cons_append, append_assoc, singleton_append, readValue,
    readText_written _ _ _ _ (by simp)]
  rfl

lemma readValue_writeFlag (b : Bool) (fuel : Nat) (rest : List Char) :
    readValue (fuel + 1) ((writeFlag b).toList ++ rest) = some (.bool b, rest) := by
  cases b <;> rfl

lemma digits_append {ds : List Char} (h : ∀ c ∈ ds, c.isDigit) (rest : List Char) :
    digits (ds ++ ',' :: rest) = ds := by
  rw [digits, takeWhile_append_of_pos h, takeWhile_cons_of_neg (by decide),
    append_nil]

lemma numberOf_toDigits (n : Nat) : numberOf (Nat.toDigits 10 n) = n := by
  have h : Nat.ofDigitChars 10 (Nat.toDigits 10 n) 0 = n := Nat.ofDigitChars_ten_toDigits
  rw [Nat.ofDigitChars_eq_foldl] at h
  simpa only [numberOf, Nat.mul_comm 10] using h

lemma toDigits_head (n : Nat) : n = 0 ∨ ∃ c cs, Nat.toDigits 10 n = c :: cs ∧ c ≠ '0' := by
  induction n using Nat.strong_induction_on with
  | _ n ih =>
    by_cases hsmall : n < 10
    · have hall : ∀ d < 10, d = 0 ∨ Nat.digitChar d ≠ '0' := by decide
      rcases hall n hsmall with h | h
      · exact .inl h
      · exact .inr ⟨_, [], Nat.toDigits_of_lt_base hsmall, h⟩
    · rcases ih (n / 10) (by omega) with h | ⟨c, cs, hcs, hc⟩
      · omega
      · exact .inr ⟨c, cs ++ [Nat.digitChar (n % 10)],
          by rw [Nat.toDigits_of_base_le (by decide) (by omega), hcs]; rfl, hc⟩

lemma wholePart_toDigits (n : Nat) (rest : List Char) :
    wholePart (Nat.toDigits 10 n ++ ',' :: rest) = Nat.toDigits 10 n := by
  rcases toDigits_head n with rfl | ⟨c, cs, hcs, hc⟩
  · rfl
  · have hdigits := digits_append (fun d => Nat.isDigit_of_mem_toDigits (b := 10) (n := n) (by decide) (by decide)) rest
    unfold wholePart
    split
    · rename_i heq
      rw [hcs, cons_append, List.cons.injEq] at heq
      exact absurd heq.1 hc
    · exact hdigits

lemma readNumber_toDigits (negative : Bool) (n : Nat) (rest : List Char) :
    readNumber negative (Nat.toDigits 10 n ++ ',' :: rest) = none ∨
      readNumber negative (Nat.toDigits 10 n ++ ',' :: rest) =
        some (.int (if negative then -n else n), ',' :: rest) := by
  have hempty : (Nat.toDigits 10 n).isEmpty = false := by
    simp [Nat.toDigits_ne_nil]
  have hfraction : fractionPart (',' :: rest) = [] := rfl
  have hexponent : exponentPart (',' :: rest) = none := rfl
  simp only [readNumber, wholePart_toDigits, drop_left, hfraction, isEmpty_nil, if_true,
    hexponent, hempty, numberOf_toDigits, Bool.not_true, Bool.false_eq_true, if_false]
  by_cases hdigits : integerDigits < (Nat.toDigits 10 n).length
  · exact .inl (if_pos hdigits)
  · exact .inr (if_neg hdigits)

lemma readWord?_digit (h : c.isDigit) (rest : List Char) :
    readWord? (c :: rest) = none ∧ readWord? ('-' :: c :: rest) = none := by
  have hne : ∀ d : Char, d.isDigit = false → d ≠ c := by
    rintro d hd rfl
    rw [h] at hd
    cases hd
  simp [readWord?, wordTable, List.isPrefixOf, hne 'n' rfl, hne 't' rfl, hne 'f' rfl, hne 'N' rfl,
    hne 'I' rfl, hne '-' rfl]

lemma readValue_toDigits (n fuel : Nat) (rest : List Char) :
    readValue (fuel + 1) (Nat.toDigits 10 n ++ ',' :: rest) =
        readNumber false (Nat.toDigits 10 n ++ ',' :: rest) ∧
      readValue (fuel + 1) ('-' :: (Nat.toDigits 10 n ++ ',' :: rest)) =
        readNumber true (Nat.toDigits 10 n ++ ',' :: rest) := by
  obtain ⟨c, cs, hcs⟩ := exists_cons_of_ne_nil (Nat.toDigits_ne_nil (b := 10) (n := n))
  have hdigit : c.isDigit :=
    Nat.isDigit_of_mem_toDigits (b := 10) (n := n) (by decide) (by decide) (hcs ▸ (.head _))
  have hne : ∀ d : Char, d.isDigit = false → c ≠ d := by
    rintro d hd rfl
    rw [hdigit] at hd
    cases hd
  obtain ⟨hplain, hsigned⟩ := readWord?_digit hdigit (cs ++ ',' :: rest)
  rw [hcs, cons_append]
  constructor
  · unfold readValue
    split
    · rename_i heq
      exact absurd (List.cons.inj heq).1 (hne _ rfl)
    · rename_i heq
      exact absurd (List.cons.inj heq).1 (hne _ rfl)
    · rename_i heq
      exact absurd (List.cons.inj heq).1 (hne _ rfl)
    · rw [hplain]
      dsimp only
      split
      · rename_i heq
        exact absurd (List.cons.inj heq).1 (hne _ rfl)
      · rfl
  · rw [readValue, hsigned]

lemma toList_int (n : Int) :
    (toString n).toList = Nat.toDigits 10 n.natAbs ∧ 0 ≤ n ∨
      (toString n).toList = '-' :: Nat.toDigits 10 n.natAbs ∧ n < 0 := by
  have hrepr : toString n = n.repr := rfl
  rw [hrepr, Int.repr_eq_if]
  split_ifs with h
  · refine .inl ⟨?_, h⟩
    rw [Nat.repr_eq_ofList_toDigits, String.toList_ofList]
    congr 1
    omega
  · refine .inr ⟨?_, by omega⟩
    have habs : (-n).toNat = n.natAbs := by omega
    rw [Nat.repr_eq_ofList_toDigits, habs]
    simp

lemma readValue_int (n : Int) (fuel : Nat) (rest : List Char) :
    readValue (fuel + 1) ((toString n).toList ++ ',' :: rest) = none ∨
      readValue (fuel + 1) ((toString n).toList ++ ',' :: rest) = some (.int n, ',' :: rest) := by
  obtain ⟨hplain, hsigned⟩ := readValue_toDigits n.natAbs fuel rest
  rcases toList_int n with ⟨htext, hn⟩ | ⟨htext, hn⟩
  · rw [htext, hplain]
    have hvalue : (n.natAbs : Int) = n := by omega
    have hread := readNumber_toDigits false n.natAbs rest
    rwa [if_neg Bool.false_ne_true, hvalue] at hread
  · rw [htext, cons_append, hsigned]
    have hvalue : -(n.natAbs : Int) = n := by omega
    have hread := readNumber_toDigits true n.natAbs rest
    rwa [if_pos rfl, hvalue] at hread

def writtenMember (name : String) (value : List Char) : List Char :=
  (writeText name).toList ++ ':' :: ' ' :: value

lemma readMembers_member (name : String) (fuel : Nat) (done : List (List Nat × Value))
    (value rest : List Char) (hvalue : skip (value ++ rest) = value ++ rest) :
    readMembers (fuel + 1) done (writtenMember name value ++ rest) =
      (readValue fuel (value ++ rest)).bind fun (v, rest) =>
        match skip rest with
        | ',' :: rest => readMembers fuel ((codes name, v) :: done) (skip rest)
        | '\x7d' :: rest => some (.object ((codes name, v) :: done).reverse, rest)
        | _ => none := by
  have hskip : skip (':' :: ' ' :: (value ++ rest)) = ':' :: ' ' :: (value ++ rest) := rfl
  have hblank : skip (' ' :: (value ++ rest)) = value ++ rest := hvalue
  rw [writtenMember, toList_writeText]
  simp only [cons_append, append_assoc, nil_append, readMembers]
  rw [readText_written _ _ _ _ (by simp)]
  simp only [reverse_nil, nil_append, Option.bind_eq_bind, Option.bind_some, hskip, hblank]
  rfl

section

variable {name : String} {fuel : Nat} {done : List (List Nat × Value)} {value rest more : List Char}
  {v : Value} (hvalue : skip (value ++ rest) = value ++ rest)
  (hread : readValue fuel (value ++ rest) = some (v, rest))
include hvalue hread

lemma readMembers_next (hrest : skip rest = ',' :: more) :
    readMembers (fuel + 1) done (writtenMember name value ++ rest) =
      readMembers fuel ((codes name, v) :: done) (skip more) := by
  rw [readMembers_member name fuel done value rest hvalue, hread, Option.bind_some]
  simp only [hrest]

lemma readMembers_last (hrest : skip rest = '\x7d' :: more) :
    readMembers (fuel + 1) done (writtenMember name value ++ rest) =
      some (.object ((codes name, v) :: done).reverse, more) := by
  rw [readMembers_member name fuel done value rest hvalue, hread, Option.bind_some]
  simp only [hrest]

end

lemma skip_writeText (s : String) (rest : List Char) :
    skip ((writeText s).toList ++ rest) = (writeText s).toList ++ rest := by
  rw [toList_writeText]
  rfl

lemma skip_writeFlag (b : Bool) (rest : List Char) :
    skip ((writeFlag b).toList ++ rest) = (writeFlag b).toList ++ rest := by
  cases b <;> rfl

lemma skip_int (n : Int) (rest : List Char) :
    skip ((toString n).toList ++ rest) = (toString n).toList ++ rest := by
  obtain ⟨c, cs, hcs⟩ := exists_cons_of_ne_nil (Nat.toDigits_ne_nil (b := 10) (n := n.natAbs))
  have hdigit : c.isDigit :=
    Nat.isDigit_of_mem_toDigits (b := 10) (n := n.natAbs) (by decide) (by decide)
      (hcs ▸ (.head _))
  have hspace : isSpace c = false := by
    by_contra h
    simp only [Bool.not_eq_false, isSpace, Bool.or_eq_true, decide_eq_true_eq] at h
    rcases h with ((rfl | rfl) | rfl) | rfl <;> cases hdigit
  rcases toList_int n with ⟨htext, -⟩ | ⟨htext, -⟩
  · rw [htext, hcs, cons_append, skip, dropWhile_cons_of_neg (by simp [hspace])]
  · rw [htext]
    rfl

end Json

open Json (codes readMembers readMembers_next readValue readValue_writeText skip skip_writeText
  writeText writtenMember)

def configMembers (o : Options) : Record :=
  [(codes "runtime_module", .text (codes o.runtimeModule)),
   (codes "strict_padding", .bool o.strictPadding),
   (codes "export_all", .bool o.exportAll),
   (codes "header_comment", .text o.comment)]

def Stamp.record (s : Stamp) : Record :=
  [(codes "fastxdr", .text (codes version)),
   (codes "mtime_ns", .int s.modified),
   (codes "size", .int s.size),
   (codes "config", .object (configMembers s.options)),
   (codes "sha256", .text (codes s.digest))]

def lineBreak (depth : Nat) : List Char := '\n' :: List.replicate depth ' '

lemma skip_lineBreak (depth : Nat) (cs : List Char) :
    skip (lineBreak depth ++ cs) = skip cs := by
  have hblanks : ∀ n, skip (List.replicate n ' ' ++ cs) = skip cs := by
    intro n
    induction n with
    | zero => rfl
    | succ n ih => exact ih
  exact hblanks depth

lemma skip_writtenMember (name : String) (value rest : List Char) :
    skip (writtenMember name value ++ rest) = writtenMember name value ++ rest := by
  rw [writtenMember, append_assoc, skip_writeText]

def writtenConfig (o : Options) : List Char :=
  '\x7b' :: (lineBreak 4 ++
    (writtenMember "runtime_module" (writeText o.runtimeModule).toList ++ ',' :: (lineBreak 4 ++
    (writtenMember "strict_padding" (Json.writeFlag o.strictPadding).toList ++ ',' :: (lineBreak 4 ++
    (writtenMember "export_all" (Json.writeFlag o.exportAll).toList ++ ',' :: (lineBreak 4 ++
    (writtenMember "header_comment" (Json.writeCodes o.comment).toList ++
      (lineBreak 2 ++ ['\x7d'])))))))))

lemma Stamp.toList_text (s : Stamp) : s.text.toList =
    '\x7b' :: (lineBreak 2 ++
      (writtenMember "fastxdr" (writeText version).toList ++ ',' :: (lineBreak 2 ++
      (writtenMember "mtime_ns" (toString s.modified).toList ++ ',' :: (lineBreak 2 ++
      (writtenMember "size" (toString (s.size : Int)).toList ++ ',' :: (lineBreak 2 ++
      (writtenMember "config" (writtenConfig s.options) ++ ',' :: (lineBreak 2 ++
      (writtenMember "sha256" (writeText s.digest).toList ++
        (lineBreak 0 ++ ['\x7d']))))))))))) := by
  have hname : ∀ name ∈ ["fastxdr", "mtime_ns", "size", "config", "sha256", "runtime_module",
      "strict_padding", "export_all", "header_comment"],
      (writeText name).toList = '"' :: name.toList ++ ['"'] := by
    decide
  have hsize : toString (s.size : Int) = toString s.size := rfl
  simp only [forall_mem_cons] at hname
  simp [hsize, Stamp.text, writtenMember, writtenConfig, lineBreak, hname]

lemma readValue_object (depth fuel : Nat) (name : String) (value rest : List Char) :
    readValue (fuel + 1)
        ('\x7b' :: (lineBreak depth ++ (writtenMember name value ++ rest))) =
      readMembers fuel [] (writtenMember name value ++ rest) := by
  have hmark : writtenMember name value ++ rest = '"' :: (name.toList.flatMap Json.writeChar ++
      '"' :: ':' :: ' ' :: (value ++ rest)) := by
    simp [writtenMember, Json.toList_writeText]
  rw [readValue, skip_lineBreak, skip_writtenMember, hmark]
  rfl

lemma readValue_writtenConfig (c : Config) (fuel : Nat) (rest : List Char) :
    readValue (fuel + 6) (writtenConfig (.ofConfig c) ++ rest) =
      some (.object (configMembers (.ofConfig c)), rest) := by
  simp only [writtenConfig, Options.ofConfig, Json.writeCodes_codes, cons_append, append_assoc]
  rw [readValue_object,
    readMembers_next (skip_writeText _ _) (readValue_writeText _ _ _) rfl,
    skip_lineBreak, skip_writtenMember,
    readMembers_next (Json.skip_writeFlag _ _) (Json.readValue_writeFlag _ _ _) rfl,
    skip_lineBreak, skip_writtenMember,
    readMembers_next (Json.skip_writeFlag _ _) (Json.readValue_writeFlag _ _ _) rfl,
    skip_lineBreak, skip_writtenMember,
    Json.readMembers_last (skip_writeText _ _) (readValue_writeText _ _ _)
      (skip_lineBreak 2 _)]
  rfl

lemma readMembers_int (name : String) (n : Int) (fuel : Nat)
    (done : List (List Nat × Json.Value)) (rest : List Char) :
    readMembers (fuel + 2) done
        (writtenMember name (toString n).toList ++ ',' :: rest) = none ∨
      readMembers (fuel + 2) done
        (writtenMember name (toString n).toList ++ ',' :: rest) =
        readMembers (fuel + 1) ((codes name, .int n) :: done) (skip rest) := by
  rcases Json.readValue_int n fuel rest with hread | hread
  · refine .inl ?_
    rw [Json.readMembers_member _ _ _ _ _ (Json.skip_int n _), hread]
    rfl
  · exact .inr (readMembers_next (Json.skip_int n _) hread rfl)

/-- A stamp whose header comment is a text is read back. -/
lemma Stamp.read_text (s : Stamp) {c : Config} (hc : s.options = .ofConfig c) :
    Json.read s.text = none ∨ Json.read s.text = some (.object s.record) := by
  obtain ⟨fuel, hfuel⟩ : ∃ fuel, 2 * s.text.toList.length + 1 = fuel + 12 := by
    refine ⟨2 * s.text.toList.length - 11, ?_⟩
    have hlength : 6 ≤ s.text.toList.length := by
      rw [Stamp.toList_text]
      simp only [length_cons, length_append]
      omega
    omega
  have hread : readValue (fuel + 12) (skip s.text.toList) = none ∨
      readValue (fuel + 12) (skip s.text.toList) = some (.object s.record, []) := by
    have hskip : skip s.text.toList = s.text.toList := by
      rw [Stamp.toList_text]
      rfl
    rw [hskip, Stamp.toList_text, readValue_object,
      readMembers_next (skip_writeText _ _) (readValue_writeText _ _ _) rfl,
      skip_lineBreak, skip_writtenMember]
    rcases readMembers_int "mtime_ns" s.modified _ _ _ with h | h
    · exact .inl h
    · rw [h, skip_lineBreak, skip_writtenMember]
      rcases readMembers_int "size" s.size _ _ _ with h | h
      · exact .inl h
      · refine .inr ?_
        rw [h, skip_lineBreak, skip_writtenMember, hc,
          readMembers_next rfl (readValue_writtenConfig _ _ _) rfl, skip_lineBreak,
          skip_writtenMember,
          Json.readMembers_last (skip_writeText _ _) (readValue_writeText _ _ _)
            (skip_lineBreak 0 _), Stamp.record, hc]
        rfl
  simp only [Json.read, hfuel]
  rcases hread with h | h
  · exact .inl (by rw [h])
  · exact .inr (by rw [h]; rfl)

lemma Json.codes_injective {s t : String} (h : codes s = codes t) : s = t := by
  have hinjective : Function.Injective Char.toNat := fun _ _ hc => Char.toNat_inj.1 hc
  exact String.toList_inj.1 (hinjective.list_map h)

lemma isFlag_bool {a b : Bool} (h : Json.Value.isFlag (.bool a) b) : a = b := by
  revert h
  cases a <;> cases b <;> decide

lemma isText_codes {s t : String} (h : Json.Value.isText (.text (codes s)) t) :
    s = t :=
  Json.codes_injective (of_decide_eq_true h)

lemma options_of_isConfig {o d : Options}
    (h : Record.isConfig o (.object (configMembers d))) : d = o := by
  simp only [Record.isConfig, Bool.and_eq_true] at h
  obtain ⟨⟨⟨⟨hmodule, hstrict⟩, hexport⟩, hheader⟩, -⟩ := h
  have hmodule : d.runtimeModule = o.runtimeModule := isText_codes hmodule
  have hstrict : d.strictPadding = o.strictPadding := isFlag_bool hstrict
  have hexport : d.exportAll = o.exportAll := isFlag_bool hexport
  have hheader : d.comment = o.comment := of_decide_eq_true hheader
  obtain ⟨runtimeModule, strictPadding, exportAll, comment⟩ := d
  subst hmodule hstrict hexport hheader
  rfl

namespace Stamp

variable {s : Stamp}

lemma options_of_sameInputs {o : Options} (h : s.record.sameInputs o) : s.options = o :=
  options_of_isConfig (Bool.and_eq_true _ _ ▸ h).2

lemma status_of_sameStatus {modified : Int} {size : Nat}
    (h : s.record.sameStatus modified size) : s.modified = modified ∧ s.size = size := by
  obtain ⟨hmodified, hsize⟩ : Json.Value.isNumber (.int s.modified) modified ∧
      Json.Value.isNumber (.int s.size) size := Bool.and_eq_true _ _ ▸ h
  exact ⟨of_decide_eq_true hmodified, Int.ofNat_inj.1 (of_decide_eq_true hsize)⟩

lemma digest_of_sameDigest {digest : String} (h : s.record.sameDigest digest) :
    s.digest = digest :=
  isText_codes h

end Stamp

end Xdr.Build
