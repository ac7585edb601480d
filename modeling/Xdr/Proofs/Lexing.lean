import Xdr.Token.Lexer
import Mathlib.Data.List.Infix
import Mathlib.Data.List.TakeWhile

/-!
# The lexemes of a text

Which characters make a lexeme is said for each kind on its own. At every place the lexer cuts off
the longest lexeme that begins there, and prefers a reserved word to a name.
-/

namespace Xdr.Lexer

open List

variable {text w rest b more : List Char} {l : Lexeme} {c : Char} {tokens : List Token}
  {stopped : Option (Char × Position)} {p : Position} {t : Terminal} {count : Nat} {s : String}

/-- The digits of a number, in one of the two bases. -/
inductive IsDigits : List Char → Prop
  | decimal {d : Char} {ds : List Char} (all : ∀ x ∈ d :: ds, isDigit x = true) :
      IsDigits (d :: ds)
  | hexadecimal {x d : Char} {ds : List Char} (mark : x = 'x' ∨ x = 'X')
      (all : ∀ y ∈ d :: ds, isHexDigit y = true) : IsDigits ('0' :: x :: d :: ds)

/-- `IsLexeme l w`: the characters `w` are a lexeme of the kind `l`. -/
inductive IsLexeme : Lexeme → List Char → Prop
  | spelled {t : Terminal} {s : String} (spelling : t.spelling? = some s) :
      IsLexeme (.token t) s.toList
  | name {c : Char} {cs : List Char} (first : isNameStart c = true)
      (more : ∀ x ∈ cs, isNameChar x = true) : IsLexeme (.token .name) (c :: cs)
  | number {ds : List Char} (digits : IsDigits ds) : IsLexeme (.token .number) ds
  | negative {ds : List Char} (digits : IsDigits ds) : IsLexeme (.token .number) ('-' :: ds)
  | blanks {c : Char} {cs : List Char} (all : ∀ x ∈ c :: cs, isSpace x = true) :
      IsLexeme (.trivia .blanks) (c :: cs)
  | passThrough {cs : List Char} (line : ∀ x ∈ cs, x ≠ '\n') :
      IsLexeme (.trivia .passThrough) ('%' :: cs)
  | lineComment {cs : List Char} (line : ∀ x ∈ cs, x ≠ '\n') :
      IsLexeme (.trivia .lineComment) ('/' :: '/' :: cs)
  | blockComment {body : List Char} (first : ¬ ['*', '/'] <:+: body ++ ['*']) :
      IsLexeme (.trivia .blockComment) ('/' :: '*' :: (body ++ ['*', '/']))

/-- `Longest text l w`: `w` is the longest lexeme at the start of the text, and `l` is its kind. A
word that is reserved is not a name. -/
structure Longest (text : List Char) (l : Lexeme) (w : List Char) : Prop where
  lexeme : IsLexeme l w
  begins : w <+: text
  longest : ∀ l' w', IsLexeme l' w' → w' <+: text → w'.length ≤ w.length
  reserved : ∀ l', IsLexeme l' w → l' = l ∨ l' = .token .name

lemma Longest.unique {l' : Lexeme} {w' : List Char} (h : Longest text l w)
    (h' : Longest text l' w') : l = l' ∧ w = w' := by
  have hlength : w.length = w'.length :=
    Nat.le_antisymm (h'.longest l w h.lexeme h.begins) (h.longest l' w' h'.lexeme h'.begins)
  obtain rfl : w = w' :=
    (prefix_of_prefix_length_le h.begins h'.begins hlength.le).eq_of_length hlength
  refine ⟨?_, rfl⟩
  rcases h.reserved l' h'.lexeme with he | he
  · exact he.symm
  · rcases h'.reserved l h.lexeme with he' | he'
    · exact he'
    · rw [he, he']

inductive Opening
  | blank | word | digit | minus | percent | slash | mark
deriving DecidableEq

def opening (c : Char) : Opening :=
  if isSpace c then .blank
  else if isNameStart c then .word
  else if isDigit c then .digit
  else if c = '-' then .minus
  else if c = '%' then .percent
  else if c = '/' then .slash
  else .mark

lemma opening_of_isSpace (h : isSpace c) : opening c = .blank := if_pos h

lemma isSpace_iff : isSpace c ↔ c = ' ' ∨ c = '\t' ∨ c = '\x0c' ∨ c = '\r' ∨ c = '\n' := by
  simp [isSpace, or_assoc]

lemma opening_of_isNameStart (h : isNameStart c) : opening c = .word := by
  have hspace : ¬ isSpace c := by
    rw [isSpace_iff]
    rintro (rfl | rfl | rfl | rfl | rfl) <;> revert h <;> decide
  rw [opening, if_neg hspace, if_pos h]

lemma not_isNameStart_of_isDigit (h : isDigit c) : isNameStart c = false := by
  simp only [isDigit, isNameStart, Bool.and_eq_true, Bool.or_eq_false_iff, Bool.and_eq_false_iff,
    decide_eq_true_eq, decide_eq_false_iff_not, Char.le_def, UInt32.le_iff_toNat_le] at *
  simp only [Char.ext_iff, ← UInt32.toNat_inj, Char.reduceVal, UInt32.reduceToNat] at *
  omega

lemma opening_of_isDigit (h : isDigit c) : opening c = .digit := by
  have hspace : ¬ isSpace c := by
    rw [isSpace_iff]
    rintro (rfl | rfl | rfl | rfl | rfl) <;> revert h <;> decide
  rw [opening, if_neg hspace, not_isNameStart_of_isDigit h, if_neg Bool.false_ne_true, if_pos h]

def isWord : List Char → Bool
  | [] => false
  | c :: cs => isNameStart c && cs.all isNameChar

lemma spelling_shape (h : t.spelling? = some s) :
    (t ∈ Terminal.keywords ∧ isWord s.toList) ∨
    (t ∈ Terminal.all.drop 18 ∧ ∃ c, s.toList = [c] ∧ opening c = .mark) := by
  have hall : ∀ t ∈ Terminal.all, ∀ s ∈ t.spelling?,
      (t ∈ Terminal.keywords ∧ isWord s.toList) ∨
      (t ∈ Terminal.all.drop 18 ∧ s.toList.length = 1 ∧
        (s.toList.all fun c => opening c = .mark)) := by
    decide +kernel
  rcases hall t (Terminal.mem_all t) s h with hword | ⟨ht, hlength, hmark⟩
  · exact .inl hword
  · obtain ⟨c, hc⟩ := length_eq_one_iff.1 hlength
    exact .inr ⟨ht, c, hc, by simpa [hc] using hmark⟩

lemma spelling_injective {t' : Terminal} (h : t.spelling? = some s) (h' : t'.spelling? = some s) :
    t = t' := by
  have hall : ∀ t ∈ Terminal.all, ∀ t' ∈ Terminal.all,
      t.spelling?.isSome → t.spelling? = t'.spelling? → t = t' := by
    decide +kernel
  exact hall t (Terminal.mem_all t) t' (Terminal.mem_all t') (by simp [h]) (h.trans h'.symm)

lemma IsDigits.opening {d : Char} {ds : List Char} (h : IsDigits (d :: ds)) :
    Lexer.opening d = .digit := by
  cases h with
  | decimal all => exact opening_of_isDigit (all d (.head _))
  | hexadecimal _ _ => decide

/-- What can follow a character in a lexeme, and what the lexeme then is. -/
def Shape (l : Lexeme) (c : Char) (w : List Char) : Prop :=
  match opening c with
  | .blank => l = .trivia .blanks ∧ ∀ x ∈ w, isSpace x = true
  | .word => (∀ x ∈ w, isNameChar x = true) ∧ (l = .token .name ∨
      ∃ t ∈ Terminal.keywords, l = .token t ∧ t.spelling? = some (String.ofList (c :: w)))
  | .digit => l = .token .number ∧ IsDigits (c :: w)
  | .minus => l = .token .number ∧ IsDigits w
  | .percent => l = .trivia .passThrough ∧ ∀ x ∈ w, x ≠ '\n'
  | .slash => (l = .trivia .lineComment ∧ ∃ cs, w = '/' :: cs ∧ ∀ x ∈ cs, x ≠ '\n') ∨
      (l = .trivia .blockComment ∧ ∃ body, w = '*' :: (body ++ ['*', '/']) ∧
        ¬ ['*', '/'] <:+: body ++ ['*'])
  | .mark => w = [] ∧
      ∃ t ∈ Terminal.all.drop 18, l = .token t ∧ t.spelling? = some (String.singleton c)

lemma IsLexeme.ne_nil (h : IsLexeme l w) : w ≠ [] := by
  cases h with
  | spelled spelling =>
    rcases spelling_shape spelling with ⟨-, hword⟩ | ⟨-, c, hc, -⟩
    · intro hnil
      rw [hnil] at hword
      cases hword
    · simp [hc]
  | number digits => cases digits <;> simp
  | _ => simp

lemma IsLexeme.shape (h : IsLexeme l (c :: w)) : Shape l c w := by
  generalize hcw : c :: w = text at h
  cases h with
  | @spelled t s spelling =>
    have hs : s = String.ofList (c :: w) := by rw [hcw, String.ofList_toList]
    rcases spelling_shape spelling with ⟨ht, hword⟩ | ⟨ht, c', hc, hmark⟩
    · rw [← hcw, isWord, Bool.and_eq_true, all_eq_true] at hword
      rw [Shape, opening_of_isNameStart hword.1]
      exact ⟨hword.2, .inr ⟨t, ht, rfl, hs ▸ spelling⟩⟩
    · obtain ⟨rfl, rfl⟩ := List.cons.inj (hcw.trans hc)
      rw [Shape, hmark]
      exact ⟨rfl, t, ht, rfl, by rw [spelling, hs, String.singleton_eq_ofList]⟩
  | name first more =>
    obtain ⟨rfl, rfl⟩ := List.cons.inj hcw
    rw [Shape, opening_of_isNameStart first]
    exact ⟨more, .inl rfl⟩
  | number digits =>
    subst hcw
    rw [Shape, digits.opening]
    exact ⟨rfl, digits⟩
  | negative digits =>
    obtain ⟨rfl, rfl⟩ := List.cons.inj hcw
    exact ⟨rfl, digits⟩
  | blanks all =>
    obtain ⟨rfl, rfl⟩ := List.cons.inj hcw
    rw [Shape, opening_of_isSpace (all c (.head _))]
    exact ⟨rfl, fun x hx => all x (.tail c hx)⟩
  | passThrough line =>
    obtain ⟨rfl, rfl⟩ := List.cons.inj hcw
    exact ⟨rfl, line⟩
  | lineComment line =>
    obtain ⟨rfl, rfl⟩ := List.cons.inj hcw
    exact .inl ⟨rfl, _, rfl, line⟩
  | blockComment first =>
    obtain ⟨rfl, rfl⟩ := List.cons.inj hcw
    exact .inr ⟨rfl, _, rfl, first⟩

lemma prefix_takeWhile {p : Char → Bool} (hall : ∀ x ∈ w, p x) (h : w <+: text) :
    w <+: text.takeWhile p := by
  induction w generalizing text with
  | nil => exact nil_prefix
  | cons x w ih =>
    cases text with
    | nil => simp at h
    | cons y text =>
      obtain ⟨rfl, hw⟩ := cons_prefix_cons.1 h
      rw [takeWhile_cons_of_pos (hall x (.head _))]
      exact cons_prefix_cons.2 ⟨rfl, ih (fun z hz => hall z (.tail x hz)) hw⟩

lemma longest_of_shape (hlexeme : IsLexeme l (c :: w)) (hbegins : w <+: rest)
    (hlongest : ∀ l' w', Shape l' c w' → w' <+: rest → w'.length ≤ w.length)
    (hkind : ∀ l', Shape l' c w → l' = l ∨ l' = .token .name) : Longest (c :: rest) l (c :: w) where
  lexeme := hlexeme
  begins := cons_prefix_cons.2 ⟨rfl, hbegins⟩
  longest l' w' h' hstarts := by
    cases w' with
    | nil => exact Nat.zero_le _
    | cons x w' =>
      obtain ⟨rfl, hw⟩ := cons_prefix_cons.1 hstarts
      exact Nat.succ_le_succ (hlongest l' w' h'.shape hw)
  reserved l' h' := hkind l' h'.shape

lemma longest_run {p : Char → Bool} (hlexeme : IsLexeme l (c :: rest.takeWhile p))
    (hrun : ∀ l' w, Shape l' c w → ∀ x ∈ w, p x)
    (hkind : ∀ l', Shape l' c (rest.takeWhile p) → l' = l ∨ l' = .token .name) :
    Longest (c :: rest) l (c :: rest.takeWhile p) :=
  longest_of_shape hlexeme (List.takeWhile_prefix p)
    (fun l' w' h hw => (prefix_takeWhile (hrun l' w' h) hw).length_le) hkind

lemma digitsOf_hex {x d : Char} (hx : x = 'x' ∨ x = 'X') (hd : isHexDigit d) :
    digitsOf ('0' :: x :: d :: rest) = '0' :: x :: d :: rest.takeWhile isHexDigit := by
  rw [digitsOf, if_pos (by simpa [hd] using hx)]

lemma digitsOf_cases (text : List Char) :
    (∃ x d rest, text = '0' :: x :: d :: rest ∧ (x = 'x' ∨ x = 'X') ∧ isHexDigit d) ∨
      digitsOf text = text.takeWhile isDigit ∧
        ∀ x d rest, text = '0' :: x :: d :: rest → (x = 'x' ∨ x = 'X') → isHexDigit d = false := by
  unfold digitsOf
  split
  · next x d rest =>
    split
    · next h => exact .inl ⟨x, d, rest, rfl, by simpa using h⟩
    · next h =>
      refine .inr ⟨rfl, ?_⟩
      rintro x' d' rest' he hx
      simp only [List.cons.injEq, true_and] at he
      obtain ⟨rfl, rfl, rfl⟩ := he
      simpa [hx] using h
  · next hne => exact .inr ⟨rfl, fun x d rest he => absurd he (hne x d rest)⟩

lemma digitsOf_spec (text : List Char) :
    digitsOf text <+: text ∧ (digitsOf text ≠ [] → IsDigits (digitsOf text)) ∧
      ∀ ds, IsDigits ds → ds <+: text → ds.length ≤ (digitsOf text).length := by
  rcases digitsOf_cases text with ⟨x, d, rest, rfl, hx, hd⟩ | ⟨heq, hno⟩
  · rw [digitsOf_hex hx hd]
    refine ⟨?_, fun _ => .hexadecimal hx ?_, ?_⟩
    · simpa using takeWhile_prefix isHexDigit
    · intro y hy
      rcases mem_cons.1 hy with rfl | hy
      · exact hd
      · exact mem_takeWhile_imp hy
    · intro ds hds hstarts
      cases hds with
      | @decimal e es all =>
        cases es with
        | nil => simp
        | cons y es =>
          -- The mark of the base is no decimal digit.
          obtain ⟨-, hy⟩ := cons_prefix_cons.1 hstarts
          obtain ⟨rfl, -⟩ := cons_prefix_cons.1 hy
          have hdigit := all y (by simp)
          rcases hx with rfl | rfl <;> exact absurd hdigit (by decide)
      | @hexadecimal y e es mark all =>
        simp only [cons_prefix_cons, true_and] at hstarts
        have hes := prefix_takeWhile (fun z hz => all z (.tail e hz)) hstarts.2.2
        simpa using hes.length_le
  · rw [heq]
    refine ⟨List.takeWhile_prefix isDigit, ?_, ?_⟩
    · intro hne
      obtain ⟨d, ds, hcons⟩ := exists_cons_of_ne_nil hne
      rw [hcons]
      exact .decimal fun x hx => mem_takeWhile_imp (hcons ▸ hx)
    · intro ds hds hstarts
      cases hds with
      | decimal all => exact (prefix_takeWhile all hstarts).length_le
      | @hexadecimal x d ds mark all =>
        obtain ⟨tail, rfl⟩ := hstarts
        have hfalse := hno x d (ds ++ tail) rfl mark
        rw [all d (.head _)] at hfalse
        cases hfalse

lemma commentBody?_cons (h : ∀ tail, c = '*' → rest ≠ '/' :: tail) :
    commentBody? (c :: rest) = (commentBody? rest).map (c :: ·) := by
  rw [commentBody?]
  exact h

lemma commentBody?_sound (h : commentBody? text = some b) :
    ∃ body, b = body ++ ['*', '/'] ∧ b <+: text ∧ ¬ ['*', '/'] <:+: body ++ ['*'] := by
  fun_induction commentBody? text generalizing b with
  | case1 => cases h
  | case2 tail =>
    cases h
    exact ⟨[], rfl, ⟨tail, rfl⟩, by decide⟩
  | case3 c rest hne ih =>
    obtain ⟨b', hb', rfl⟩ := Option.map_eq_some_iff.1 h
    obtain ⟨body, rfl, hstarts, hfirst⟩ := ih hb'
    refine ⟨c :: body, rfl, cons_prefix_cons.2 ⟨rfl, hstarts⟩, ?_⟩
    rw [cons_append, infix_cons_iff]
    rintro (hhere | hlater)
    · obtain ⟨rfl, hslash⟩ := cons_prefix_cons.1 hhere
      -- The second character of the mark is also the first one of the rest.
      have hmark : body ++ ['*'] <+: body ++ ['*', '/'] :=
        (prefix_append_right_inj body).2 (by simp)
      have hrest : ['/'] <+: rest := hslash.trans (hmark.trans hstarts)
      obtain ⟨tail, rfl⟩ := hrest
      exact hne tail rfl rfl
    · exact hfirst hlater

lemma commentBody?_complete {body : List Char} (hstarts : body ++ ['*', '/'] <+: text)
    (hfirst : ¬ ['*', '/'] <:+: body ++ ['*']) : commentBody? text = some (body ++ ['*', '/']) := by
  induction body generalizing text with
  | nil =>
    obtain ⟨tail, rfl⟩ := hstarts
    rfl
  | cons c body ih =>
    obtain ⟨tail, rfl⟩ := hstarts
    rw [cons_append, infix_cons_iff, not_or] at hfirst
    have hne : ∀ rest, c = '*' → body ++ ['*', '/'] ++ tail ≠ '/' :: rest := by
      rintro rest rfl he
      cases body with
      | nil => cases he
      | cons d body =>
        obtain ⟨rfl, -⟩ := List.cons.inj he
        exact hfirst.1 (by simp)
    rw [cons_append, cons_append, commentBody?_cons hne,
      ih (prefix_append _ tail) hfirst.2]
    rfl

lemma wordKind_cases (word : List Char) :
    (wordKind word).spelling? = some (String.ofList word) ∨
      (wordKind word = .name ∧
        ∀ t ∈ Terminal.keywords, t.spelling? ≠ some (String.ofList word)) := by
  unfold wordKind
  cases hfind : Terminal.keywords.find? fun t => t.spelling? = some (String.ofList word) with
  | none =>
    refine .inr ⟨rfl, fun t ht he => ?_⟩
    exact absurd (decide_eq_true he) (find?_eq_none.1 hfind t ht)
  | some t => exact .inl (by simpa using find?_some hfind)

lemma longest_word (hc : isNameStart c) :
    Longest (c :: rest) (.token (wordKind (c :: rest.takeWhile isNameChar)))
      (c :: rest.takeWhile isNameChar) := by
  have hshape : ∀ l w, Shape l c w → (∀ x ∈ w, isNameChar x) ∧ (l = .token .name ∨
      ∃ t ∈ Terminal.keywords, l = .token t ∧ t.spelling? = some (String.ofList (c :: w))) := by
    intro l w h
    rwa [Shape, opening_of_isNameStart hc] at h
  have hmore : ∀ x ∈ rest.takeWhile isNameChar, isNameChar x :=
    fun x hx => mem_takeWhile_imp hx
  rcases wordKind_cases (c :: rest.takeWhile isNameChar) with hspelled | ⟨hname, hnone⟩
  · refine longest_run ?_ (fun l w h => (hshape l w h).1) fun l h => ?_
    · have hlexeme := IsLexeme.spelled hspelled
      rwa [String.toList_ofList] at hlexeme
    · rcases (hshape l _ h).2 with hl | ⟨t, -, rfl, ht⟩
      · exact .inr hl
      · exact .inl (congrArg Lexeme.token (spelling_injective ht hspelled))
  · refine longest_run (hname ▸ .name hc hmore) (fun l w h => (hshape l w h).1) fun l h => ?_
    rcases (hshape l _ h).2 with hl | ⟨t, hmem, rfl, ht⟩
    · exact .inr hl
    · exact absurd ht (hnone t hmem)

lemma longest_blanks (hc : isSpace c) :
    Longest (c :: rest) (.trivia .blanks) (c :: rest.takeWhile isSpace) := by
  have hshape : ∀ l w, Shape l c w → l = .trivia .blanks ∧ ∀ x ∈ w, isSpace x := by
    intro l w h
    rwa [Shape, opening_of_isSpace hc] at h
  refine longest_run (.blanks ?_) (fun l w h => (hshape l w h).2) fun l h => .inl (hshape l _ h).1
  rintro x (_ | ⟨_, hx⟩)
  · exact hc
  · exact mem_takeWhile_imp hx

lemma longest_passThrough :
    Longest ('%' :: rest) (.trivia .passThrough) ('%' :: rest.takeWhile (· ≠ '\n')) := by
  refine longest_run (.passThrough ?_) (fun l w h => ?_) fun l h => .inl h.1
  · intro x hx
    simpa using mem_takeWhile_imp hx
  · simpa using h.2

lemma longest_lineComment :
    Longest ('/' :: '/' :: more) (.trivia .lineComment)
      ('/' :: '/' :: more.takeWhile (· ≠ '\n')) := by
  refine longest_of_shape (.lineComment ?_) ?_ ?_ ?_
  · intro x hx
    simpa using mem_takeWhile_imp hx
  · exact cons_prefix_cons.2 ⟨rfl, takeWhile_prefix _⟩
  · rintro l w (⟨rfl, cs, rfl, hline⟩ | ⟨rfl, body, rfl, -⟩) hstarts
    · have hcs := prefix_takeWhile (p := (· ≠ '\n')) (by simpa using hline)
        (cons_prefix_cons.1 hstarts).2
      simpa using hcs.length_le
    · exact absurd (cons_prefix_cons.1 hstarts).1 (by decide)
  · rintro l (⟨rfl, -⟩ | ⟨rfl, body, hw, -⟩)
    · exact .inl rfl
    · exact absurd (List.cons.inj hw).1 (by decide)

lemma longest_blockComment (h : commentBody? more = some b) :
    Longest ('/' :: '*' :: more) (.trivia .blockComment) ('/' :: '*' :: b) := by
  obtain ⟨body, rfl, hbegins, hfirst⟩ := commentBody?_sound h
  refine longest_of_shape (.blockComment hfirst) (cons_prefix_cons.2 ⟨rfl, hbegins⟩) ?_ ?_
  · rintro l w (⟨rfl, cs, rfl, -⟩ | ⟨rfl, body', rfl, hfirst'⟩) hstarts
    · exact absurd (cons_prefix_cons.1 hstarts).1 (by decide)
    · have hsame := commentBody?_complete (cons_prefix_cons.1 hstarts).2 hfirst'
      rw [Option.some.inj (h.symm.trans hsame)]
  · rintro l (⟨rfl, cs, hw, -⟩ | ⟨rfl, -⟩)
    · exact absurd (List.cons.inj hw).1 (by decide)
    · exact .inl rfl

lemma longest_number (hc : isDigit c) :
    Longest (c :: rest) (.token .number) (digitsOf (c :: rest)) := by
  have hshape : ∀ l w, Shape l c w → l = .token .number ∧ IsDigits (c :: w) := by
    intro l w h
    rwa [Shape, opening_of_isDigit hc] at h
  obtain ⟨hbegins, hdigits, hlongest⟩ := digitsOf_spec (c :: rest)
  have hone := hlongest [c] (.decimal (by simpa using hc)) (by simp)
  cases hd : digitsOf (c :: rest) with
  | nil => simp [hd] at hone
  | cons d w =>
    rw [hd] at hbegins hdigits hlongest
    obtain ⟨rfl, hw⟩ := cons_prefix_cons.1 hbegins
    refine longest_of_shape (.number (hdigits (by simp))) hw (fun l w' h hw' => ?_)
      fun l h => .inl (hshape l _ h).1
    have hle := hlongest (d :: w') (hshape l w' h).2 (cons_prefix_cons.2 ⟨rfl, hw'⟩)
    simpa using hle

lemma longest_negative (hne : digitsOf rest ≠ []) :
    Longest ('-' :: rest) (.token .number) ('-' :: digitsOf rest) := by
  obtain ⟨hbegins, hdigits, hlongest⟩ := digitsOf_spec rest
  exact longest_of_shape (.negative (hdigits hne)) hbegins (fun l w h hw => hlongest w h.2 hw)
    fun l h => .inl h.1

lemma longest_mark (hc : opening c = .mark) (ht : markKind? c = some t) :
    Longest (c :: rest) (.token t) [c] := by
  have hshape : ∀ l w, Shape l c w → w = [] ∧
      ∃ t ∈ Terminal.all.drop 18, l = .token t ∧ t.spelling? = some (String.singleton c) := by
    intro l w h
    rwa [Shape, hc] at h
  have hspelled : t.spelling? = some (String.singleton c) := by simpa using find?_some ht
  refine longest_of_shape ?_ nil_prefix (fun l w h _ => by simp [(hshape l w h).1]) fun l h => ?_
  · have hlexeme := IsLexeme.spelled hspelled
    rwa [String.singleton_eq_ofList, String.toList_ofList] at hlexeme
  · obtain ⟨-, t', -, rfl, ht'⟩ := hshape l _ h
    exact .inl (congrArg Lexeme.token (spelling_injective ht' hspelled))

lemma scan?_sound (h : scan? text = some (l, w)) : Longest text l w := by
  unfold scan? at h
  split at h
  · cases h
  · next c rest =>
    split_ifs at h with hspace hname hdigit hminus hpercent hslash
    · cases h
      exact longest_blanks hspace
    · cases h
      exact longest_word hname
    · cases h
      exact longest_number hdigit
    · subst hminus
      split at h
      · cases h
      · next d ds hds =>
        cases h
        exact hds ▸ longest_negative (by simp [hds])
    · cases h
      exact hpercent ▸ longest_passThrough
    · subst hslash
      split at h
      · cases h
        exact longest_lineComment
      · next more =>
        obtain ⟨b, hb, he⟩ := Option.map_eq_some_iff.1 h
        cases he
        exact longest_blockComment hb
      · cases h
    · have hmark : opening c = .mark := by simp [opening, *]
      obtain ⟨t, ht, he⟩ := Option.map_eq_some_iff.1 h
      cases he
      exact longest_mark hmark ht

lemma scan?_complete (hlexeme : IsLexeme l w) (hstarts : w <+: text) : scan? text ≠ none := by
  cases w with
  | nil => exact absurd rfl hlexeme.ne_nil
  | cons c w =>
    obtain ⟨tail, rfl⟩ := hstarts
    have hshape := hlexeme.shape
    intro h
    unfold scan? at h
    dsimp only [cons_append] at h
    split_ifs at h with hspace hname hdigit hminus hpercent hslash
    · subst hminus
      obtain ⟨-, -, hlongest⟩ := digitsOf_spec (w ++ tail)
      have hle := hlongest w hshape.2 (prefix_append w tail)
      split at h
      · next hnil =>
        rw [hnil] at hle
        obtain rfl := length_eq_zero_iff.1 (Nat.le_zero.1 hle)
        cases hshape.2
      · cases h
    · subst hslash
      rcases hshape with ⟨-, cs, rfl, -⟩ | ⟨-, body, rfl, hfirst⟩
      · cases h
      · have hbody := commentBody?_complete (prefix_append (body ++ ['*', '/']) tail) hfirst
        simp only [cons_append, hbody, Option.map_some, reduceCtorEq] at h
    · have hmark : opening c = .mark := by simp [opening, *]
      rw [Shape, hmark] at hshape
      obtain ⟨-, t, ht, -, hspelled⟩ := hshape
      rw [Option.map_eq_none_iff, markKind?, find?_eq_none] at h
      exact absurd (decide_eq_true hspelled) (h t ht)

lemma scan?_eq_some_iff : scan? text = some (l, w) ↔ Longest text l w := by
  refine ⟨scan?_sound, fun h => ?_⟩
  cases hs : scan? text with
  | none => exact absurd hs (scan?_complete h.lexeme h.begins)
  | some r =>
    obtain ⟨rfl, rfl⟩ := (scan?_sound hs).unique h
    rfl

lemma scan?_eq_none_iff : scan? text = none ↔ ∀ l w, IsLexeme l w → ¬ w <+: text := by
  refine ⟨fun h l w hl hw => scan?_complete hl hw h, fun h => ?_⟩
  cases hs : scan? text with
  | none => rfl
  | some r => exact absurd (scan?_sound hs).begins (h r.1 r.2 (scan?_sound hs).lexeme)

/-- `Splits p text tokens stopped`: from the place `p` on, the text is a sequence of longest lexemes,
of which `tokens` are the tokens. It ends, or stops at a character that begins no lexeme. -/
inductive Splits : Position → List Char → List Token → Option (Char × Position) → Prop
  | done (p : Position) : Splits p [] [] none
  | stop {p : Position} {c : Char} {cs : List Char}
      (impossible : ∀ l w, IsLexeme l w → ¬ w <+: c :: cs) : Splits p (c :: cs) [] (some (c, p))
  | skip {p : Position} {k : Trivia} {w rest : List Char} {tokens : List Token}
      {stopped : Option (Char × Position)} (longest : Longest (w ++ rest) (.trivia k) w)
      (more : Splits (p.advance w) rest tokens stopped) : Splits p (w ++ rest) tokens stopped
  | token {p : Position} {t : Terminal} {w rest : List Char} {tokens : List Token}
      {stopped : Option (Char × Position)} (longest : Longest (w ++ rest) (.token t) w)
      (more : Splits (p.advance w) rest tokens stopped) :
      Splits p (w ++ rest) (⟨t, String.ofList w, p, p.advance w⟩ :: tokens) stopped

lemma Splits.lexeme (h : Splits p text tokens stopped) :
    ∀ t ∈ tokens, IsLexeme (.token t.kind) t.text.toList := by
  induction h with
  | done p | stop impossible => simp
  | skip longest more ih => exact ih
  | token longest more ih =>
    intro t ht
    rcases mem_cons.1 ht with rfl | ht
    · exact (String.toList_ofList (l := _)).symm ▸ longest.lexeme
    · exact ih t ht

def emit (p : Position) (w : List Char) (tail : Lexed) : Lexeme → Lexed
  | .trivia _ => tail
  | .token t => { tail with tokens := ⟨t, String.ofList w, p, p.advance w⟩ :: tail.tokens }

lemma lexFrom_longest (h : Longest (w ++ rest) l w) :
    lexFrom (count + 1) p (w ++ rest) = emit p w (lexFrom count (p.advance w) rest) l := by
  have hscan := scan?_eq_some_iff.2 h
  have hdrop : (w ++ rest).drop w.length = rest := drop_left
  obtain ⟨c, cs, hcons⟩ := exists_cons_of_ne_nil
    (append_ne_nil_of_left_ne_nil h.lexeme.ne_nil rest)
  rw [hcons] at hscan hdrop ⊢
  rw [lexFrom, hscan]
  simp only [hdrop]
  cases l <;> rfl

lemma lexFrom_of_splits (h : Splits p text tokens stopped) (hcount : text.length ≤ count) :
    lexFrom count p text = ⟨tokens, stopped⟩ := by
  induction h generalizing count with
  | done p => cases count <;> rfl
  | stop impossible =>
    obtain ⟨count, rfl⟩ : ∃ n, count = n + 1 := ⟨count - 1, by simp at hcount; omega⟩
    rw [lexFrom, scan?_eq_none_iff.2 impossible]
  | @skip p k w rest tokens stopped longest more ih
  | @token p t w rest tokens stopped longest more ih =>
    have hw := length_pos_iff.2 longest.lexeme.ne_nil
    rw [length_append] at hcount
    obtain ⟨count, rfl⟩ : ∃ n, count = n + 1 := ⟨count - 1, by omega⟩
    rw [lexFrom_longest longest, ih (by omega), emit]

lemma exists_splits (p : Position) (text : List Char) :
    ∃ tokens stopped, Splits p text tokens stopped := by
  induction hn : text.length using Nat.strong_induction_on generalizing p text with
  | _ n ih =>
    cases text with
    | nil => exact ⟨[], none, .done p⟩
    | cons c cs =>
      cases hs : scan? (c :: cs) with
      | none => exact ⟨[], some (c, p), .stop (scan?_eq_none_iff.1 hs)⟩
      | some r =>
        obtain ⟨l, w⟩ := r
        have hlongest := scan?_sound hs
        obtain ⟨rest, hrest⟩ := hlongest.begins
        have hw := length_pos_iff.2 hlongest.lexeme.ne_nil
        rw [← hrest] at hlongest hn ⊢
        rw [length_append] at hn
        obtain ⟨tokens, stopped, hmore⟩ := ih rest.length (by omega) (p.advance w) rest rfl
        cases l with
        | trivia k => exact ⟨tokens, stopped, .skip hlongest hmore⟩
        | token t => exact ⟨_, stopped, .token hlongest hmore⟩

lemma lex_eq_iff {source : String} :
    lex source = ⟨tokens, stopped⟩ ↔ Splits .first source.toList tokens stopped := by
  constructor
  · intro h
    obtain ⟨tokens', stopped', hsplits⟩ := exists_splits .first source.toList
    have heq := h.symm.trans (lexFrom_of_splits hsplits le_rfl)
    rw [Lexed.mk.injEq] at heq
    obtain ⟨rfl, rfl⟩ := heq
    exact hsplits
  · intro h
    exact lexFrom_of_splits h le_rfl

end Xdr.Lexer
