import Xdr.Proofs.Compilation

/-!
# Header comments

What the header of a module says stays in comments, and the code below it is the same for every
header.
-/

namespace Xdr

open List

variable {w : List Char} {body : Lines} {accepted : Accepted} {file source : String}

/-- Source code without the comment lines at its top, from the start of a line or from inside a
comment. A line ends with a line feed, a carriage return or both. -/
def codeFrom (inside : Bool) : List Char → List Char
  | [] => []
  | '\r' :: '\n' :: rest => if inside then codeFrom false rest else '\r' :: '\n' :: rest
  | c :: rest =>
    if inside then codeFrom (c ≠ '\n' && c ≠ '\r') rest
    else if c = '#' then codeFrom true rest
    else c :: rest

def codeOf (text : String) : List Char := codeFrom false text.toList

def OneLine (cs : List Char) : Prop := ∀ x ∈ cs, x ≠ '\n' ∧ x ≠ '\r'

lemma codeFrom_comment (hw : OneLine w) (rest : List Char) :
    codeFrom true (w ++ '\n' :: rest) = codeFrom false rest := by
  induction w with
  | nil => simp [codeFrom]
  | cons c w ih =>
    obtain ⟨⟨hbreak, hreturn⟩, hw⟩ := forall_mem_cons.1 hw
    rw [cons_append, codeFrom]
    · simpa [hbreak, hreturn] using ih hw
    · simp [hreturn]

lemma codeFrom_line (hw : OneLine w) (rest : List Char) :
    codeFrom false ('#' :: w ++ '\n' :: rest) = codeFrom false rest := by
  rw [cons_append, codeFrom]
  · simpa using codeFrom_comment hw rest
  · simp

namespace Lines

lemma text_cons (l : Line) {ls : Lines} (h : ∃ x ∈ ls, x.render ≠ "") :
    text (l :: ls) = l.render ++ "\n" ++ text ls := by
  obtain ⟨x, hx, hwritten⟩ := h
  have hkept : (ls.map Line.render).reverse.dropWhile String.isEmpty ≠ [] := by
    rw [Ne, dropWhile_eq_nil_iff]
    intro hall
    exact hwritten (by simpa using hall x.render (by simpa using ⟨x, hx, rfl⟩))
  obtain ⟨y, ys, hys⟩ := exists_cons_of_ne_nil
    (by simpa using hkept : ((ls.map Line.render).reverse.dropWhile String.isEmpty).reverse ≠ [])
  simp only [text, map_cons, reverse_cons, dropWhile_append]
  rw [if_neg (by simpa using hkept), reverse_append, hys]
  simp [String.intercalate_cons_cons, String.append_assoc]

end Lines

def Line.IsComment (l : Line) : Prop := ∃ w, l.render.toList = '#' :: w ∧ OneLine w

lemma codeOf_comments {comments : Lines} (hcomments : ∀ l ∈ comments, l.IsComment)
    (hbody : ∃ x ∈ body, x.render ≠ "") : codeOf (comments ++ body).text = codeOf body.text := by
  induction comments with
  | nil => rfl
  | cons l rest ih =>
    obtain ⟨⟨w, hrender, hw⟩, hrest⟩ := forall_mem_cons.1 hcomments
    obtain ⟨x, hx, hwritten⟩ := hbody
    rw [cons_append, Lines.text_cons l ⟨x, mem_append_right _ hx, hwritten⟩, codeOf]
    simp only [String.toList_append, hrender, append_assoc]
    exact (codeFrom_line hw _).trans (ih hrest)

lemma lines_oneLine (s : String) : ∀ l ∈ Text.lines s, OneLine l.toList := by
  have hfrom : ∀ (cs line : List Char), OneLine line → ∀ l ∈ Text.linesFrom line cs, OneLine l := by
    intro cs line hline
    fun_induction Text.linesFrom line cs with
    | case1 => simp
    | case2 => simpa [OneLine] using hline
    | case3 line rest ih | case4 line c rest _ hbreak ih =>
      exact forall_mem_cons.2 ⟨by simpa [OneLine] using hline, ih nofun⟩
    | case5 line c rest _ hbreak ih =>
      refine ih (forall_mem_cons.2 ⟨⟨?_, ?_⟩, hline⟩)
      · rintro rfl
        exact hbreak (by decide)
      · rintro rfl
        exact hbreak (by decide)
  intro l hl
  obtain ⟨cs, hcs, rfl⟩ := mem_map.1 hl
  simpa using hfrom s.toList [] nofun cs hcs

lemma isComment_line {s : String} (hs : s.toList = '#' :: w) (hw : OneLine w) :
    Line.IsComment ⟨0, .plain s⟩ := by
  have hne : s ≠ "" := by
    rintro rfl
    cases hs
  refine ⟨w, ?_, hw⟩
  simpa [Line.render, Phrase.plain, Phrase.text, Word.text, hne] using hs

lemma trimEnd_comment {text : String} (h : OneLine text.toList) :
    ∃ w, (Text.trimEnd ("# " ++ text)).toList = '#' :: w ∧ OneLine w := by
  have htrim : (Text.trimEnd ("# " ++ text)).toList =
      ('#' :: ' ' :: text.toList).rdropWhile Text.isBlank := by
    simp [Text.trimEnd, List.rdropWhile]
  have hprefix := rdropWhile_prefix Text.isBlank ('#' :: ' ' :: text.toList)
  rw [← htrim] at hprefix
  cases hcs : (Text.trimEnd ("# " ++ text)).toList with
  | nil =>
    rw [htrim, rdropWhile_eq_nil_iff] at hcs
    exact absurd (hcs '#' (.head _)) (by decide)
  | cons c w =>
    rw [hcs, cons_prefix_cons] at hprefix
    obtain ⟨rfl, hw⟩ := hprefix
    refine ⟨w, rfl, fun x hx => ?_⟩
    rcases mem_cons.1 (hw.subset hx) with rfl | hx
    · decide
    · exact h x hx

namespace Emit

lemma isComment_header (c : Config) {sourceName : Option String}
    (h : ∀ name ∈ sourceName, OneLine name.toList) :
    ∀ l ∈ headerComments c sourceName, l.IsComment := by
  intro l hl
  rcases mem_append.1 hl with hl | hl
  · obtain ⟨text, htext, hl⟩ := mem_flatMap.1 hl
    cases mem_singleton.1 hl
    obtain ⟨w, hw, hone⟩ := trimEnd_comment (lines_oneLine _ text htext)
    exact isComment_line hw hone
  · cases sourceName with
    | none => cases hl
    | some name =>
      dsimp only at hl
      split_ifs at hl
      · cases hl
      · cases mem_singleton.1 hl
        have hfixed : OneLine " Generated by fastxdr from ".toList := by simp [OneLine]
        refine isComment_line (w := " Generated by fastxdr from ".toList ++ name.toList) (by simp) ?_
        exact forall_mem_append.2 ⟨hfixed, h name rfl⟩

lemma body_opens {s : Schema} {c : Config} (h : bodyLines? s c = some body) :
    ∃ rest, body = ⟨0, Phrase.plain "from __future__ import " ++ Phrase.rely "annotations"⟩ :: rest := by
  obtain ⟨enums, -, h⟩ := Option.bind_eq_some_iff.1 h
  obtain ⟨types, -, h⟩ := Option.bind_eq_some_iff.1 h
  cases h
  exact ⟨_, rfl⟩

end Emit

lemma compile_schema_of_filename (h : (compile file source).outcome = .ok accepted)
    (file' : String) :
    ∃ accepted', (compile file' source).outcome = .ok accepted' ∧ accepted'.schema = accepted.schema := by
  obtain ⟨-, tree, spec, htree, -, hbuild, -, -⟩ := exists_built_of_compile h
  have houtcome : ∀ f, (compile f source).outcome = (analyze spec).outcome ⟨some source, f, []⟩ := by
    intro f
    rw [compile_of_tree htree, definitionsOf, hbuild]
  rw [houtcome, Analysis.outcome] at h
  rw [houtcome, Analysis.outcome]
  split_ifs at h ⊢ with hwritable
  split at h
  · cases h
    exact ⟨_, rfl, rfl⟩
  · cases h

lemma generate_code (c : Config) (h : (compile file source).outcome = .ok accepted)
    (hfile : ∀ name ∈ Emit.sourceName? file, OneLine name.toList)
    (hbody : Emit.bodyLines? accepted.schema c = some body) :
    ∃ text, generate c file source = .ok text ∧ codeOf text = codeOf body.text := by
  have hlines : Emit.moduleLines? accepted.schema c (Emit.sourceName? file) =
      some (Emit.headerComments c (Emit.sourceName? file) ++ body) := by
    rw [Emit.moduleLines?, hbody]
    rfl
  refine ⟨(Emit.headerComments c (Emit.sourceName? file) ++ body).text, ?_, ?_⟩
  · rw [generate, h]
    show (do return (← accepted.moduleLines c file).text) = _
    rw [Accepted.moduleLines, hlines]
    rfl
  · obtain ⟨rest, hrest⟩ := Emit.body_opens hbody
    refine codeOf_comments (Emit.isComment_header c hfile) ⟨_, hrest ▸ mem_cons_self, ?_⟩
    decide

/-- Where the file of a module is named by one line, nothing that its header says is code: the same
code stands below every header. -/
theorem code_apart_from_header (c : Config) {file source : String} {accepted : Accepted}
    (h : (compile file source).outcome = .ok accepted) (header header' file' : String)
    (hfile : ∀ name ∈ Emit.sourceName? file, OneLine name.toList)
    (hfile' : ∀ name ∈ Emit.sourceName? file', OneLine name.toList) :
    ∃ text text', generate { c with headerComment := header } file source = .ok text ∧
      generate { c with headerComment := header' } file' source = .ok text' ∧
      codeOf text = codeOf text' := by
  obtain ⟨accepted', h', hschema⟩ := compile_schema_of_filename h file'
  obtain ⟨lines, hlines⟩ := (complete_of_compile h).exists_moduleLines c none
  obtain ⟨body, hbody, -⟩ := Option.map_eq_some_iff.1 hlines
  obtain ⟨text, htext, hcode⟩ := generate_code { c with headerComment := header } h hfile hbody
  obtain ⟨text', htext', hcode'⟩ :=
    generate_code { c with headerComment := header' } h' hfile' (hschema ▸ hbody)
  exact ⟨text, text', htext, htext', hcode.trans hcode'.symm⟩

/-- A header of two lines, the second of which would be code on its own. -/
theorem code_apart_from_header_import :
    ∃ text text', generate { headerComment := "a\nimport os" } "x" "" = .ok text ∧
      generate {} "x" "" = .ok text' ∧ codeOf text = codeOf text' := by
  have haccepted : (compile "x" "").outcome.toOption.map (fun _ => ()) = some () := by decide +kernel
  obtain ⟨accepted, houtcome, -⟩ := exists_ok_of_toOption haccepted
  have hname : ∀ name ∈ Emit.sourceName? "x", OneLine name.toList := by
    rw [show Emit.sourceName? "x" = some "x" by cbv]
    rintro _ ⟨⟩
    simp [OneLine]
  exact code_apart_from_header {} houtcome "a\nimport os" ({} : Config).headerComment "x" hname hname

end Xdr
