import Xdr.Proofs.Headers

/-!
# Spans delimit their text

The span of a name or a number in the definitions of a text holds exactly its characters, and a
diagnostic at a token shows its line.
-/

namespace Xdr

open List

namespace Position

def Before (p q : Position) : Prop := p.line < q.line ∨ p.line = q.line ∧ p.col < q.col

instance (p q : Position) : Decidable (p.Before q) := inferInstanceAs (Decidable (_ ∨ _))

lemma before_step (p : Position) (c : Char) : p.Before (p.step c) := by
  unfold step Before
  split_ifs <;> simp

lemma not_before_of_advance (p : Position) (cs : List Char) : ¬ (p.advance cs).Before p := by
  induction cs generalizing p with
  | nil =>
    rw [advance_nil, Before]
    omega
  | cons c cs ih =>
    have hstep := p.before_step c
    have hmore := ih (p.step c)
    rw [advance_cons]
    unfold Before at *
    omega

end Position

/-- The characters of a text, each with its place. -/
def placed (p : Position) : List Char → List (Position × Char)
  | [] => []
  | c :: cs => (p, c) :: placed (p.step c) cs

lemma placed_append (p : Position) (cs ds : List Char) :
    placed p (cs ++ ds) = placed p cs ++ placed (p.advance cs) ds := by
  induction cs generalizing p with
  | nil => rfl
  | cons c cs ih => rw [cons_append, placed, placed, ih, Position.advance_cons, cons_append]

lemma placed_chars (p : Position) (cs : List Char) : (placed p cs).map (·.2) = cs := by
  induction cs generalizing p with
  | nil => rfl
  | cons c cs ih => rw [placed, map_cons, ih]

lemma between_of_mem_placed {p : Position} {cs : List Char} {x : Position × Char}
    (h : x ∈ placed p cs) : ¬ x.1.Before p ∧ x.1.Before (p.advance cs) := by
  induction cs generalizing p with
  | nil => cases h
  | cons c cs ih =>
    have hstep := p.before_step c
    have hlater := (p.step c).not_before_of_advance cs
    rw [Position.advance_cons]
    rcases mem_cons.1 h with rfl | h
    · dsimp only
      unfold Position.Before at *
      omega
    · have hmore := ih h
      unfold Position.Before at *
      omega

def Span.Holds (s : Span) (p : Position) : Prop :=
  (s.line < p.line ∨ s.line = p.line ∧ s.col ≤ p.col) ∧
    ((p.line : Int) < s.endLine ∨ p.line = s.endLine ∧ (p.col : Int) < s.endCol)

instance (s : Span) (p : Position) : Decidable (s.Holds p) := inferInstanceAs (Decidable (_ ∧ _))

/-- The characters of a text between the start and the end of a span. -/
def Span.cut (s : Span) (source : String) : String :=
  String.ofList (((placed .first source.toList).filter (s.Holds ·.1)).map (·.2))

lemma Span.holds_between {a b p : Position} :
    (Span.between a b).Holds p ↔ ¬ p.Before a ∧ p.Before b := by
  simp only [Holds, between, Position.Before]
  omega

lemma Span.cut_between {source : String} {before w after : List Char}
    (h : source.toList = before ++ (w ++ after)) :
    (Span.between (Position.first.advance before) ((Position.first.advance before).advance w)).cut
      source = String.ofList w := by
  rw [cut, h, placed_append, placed_append, filter_append, filter_append,
    filter_eq_nil_iff.2, filter_eq_self.2, filter_eq_nil_iff.2, nil_append,
    append_nil, placed_chars]
  · intro x hx hholds
    exact (between_of_mem_placed hx).1 (holds_between.1 (of_decide_eq_true hholds)).2
  · exact fun x hx => decide_eq_true (holds_between.2 (between_of_mem_placed hx))
  · intro x hx hholds
    exact (holds_between.1 (of_decide_eq_true hholds)).1 (between_of_mem_placed hx).2

namespace Lexer

variable {p : Position} {text : List Char} {tokens : List Token} {stopped : Option (Char × Position)}

lemma Splits.place (h : Splits p text tokens stopped) {t : Token} (ht : t ∈ tokens) :
    ∃ before after, text = before ++ (t.text.toList ++ after) ∧ t.start = p.advance before ∧
      t.stop = t.start.advance t.text.toList := by
  induction h with
  | done p => cases ht
  | stop impossible => cases ht
  | @skip p k w rest tokens stopped longest more ih =>
    obtain ⟨before, after, rfl, hstart, hstop⟩ := ih ht
    exact ⟨w ++ before, after, by simp, by rw [hstart, Position.advance_append], hstop⟩
  | @token p k w rest tokens stopped longest more ih =>
    rcases mem_cons.1 ht with rfl | ht
    · exact ⟨[], rest, by simp, rfl, by simp⟩
    · obtain ⟨before, after, rfl, hstart, hstop⟩ := ih ht
      exact ⟨w ++ before, after, by simp, by rw [hstart, Position.advance_append], hstop⟩

lemma Splits.ordered (h : Splits p text tokens stopped) :
    tokens.Pairwise fun a b => ¬ b.start.Before a.stop := by
  induction h with
  | done p => exact .nil
  | stop impossible => exact .nil
  | skip longest more ih => exact ih
  | token longest more ih =>
    refine .cons (fun b hb => ?_) ih
    obtain ⟨before, -, -, hstart, -⟩ := more.place hb
    rw [hstart]
    exact Position.not_before_of_advance _ before

lemma Splits.cut {source : String} (h : Splits .first source.toList tokens stopped) {t : Token}
    (ht : t ∈ tokens) : t.span.cut source = t.text := by
  obtain ⟨before, after, htext, hstart, hstop⟩ := h.place ht
  rw [Token.span, hstop, hstart, Span.cut_between htext, String.ofList_toList]

end Lexer

def Spells (source text : String) (span : Option Span) : Prop := ∃ s, span = some s ∧ s.cut source = text

namespace Ast

def Value.Spelled (source : String) : Value → Prop
  | literal loc _ text => Spells source text loc
  | reference loc name => Spells source name loc

/-- Every name and every number of a definition stands in its span. -/
structure Definition.Spelled (source : String) (d : Definition) : Prop where
  name : Spells source d.name d.nameSpan
  variants : ∀ e, d = .enum e → ∀ v ∈ e.variants, Spells source v.name v.nameSpan
  declarations : ∀ m ∈ d.declarations, (m.name = none ∧ m.nameSpan = none) ∨
    ∃ name, m.name = some name ∧ Spells source name m.nameSpan
  numbers : ∀ x ∈ d.numbers, x.Spelled source

end Ast

/-- Every name and every number in the definitions of a text has a span, and the characters of the
text in that span are the name, or the number as written. Tokens follow one another: none starts
before the end of one in front of it. -/
theorem spans_delimit_text {source : String} {tree : Tree} {spec : Ast.Specification}
    (htree : Tree.parse source = .ok tree) (hspec : Ast.build tree = .ok spec) :
    (∀ d ∈ spec.definitions, d.Spelled source) ∧
      (Lexer.lex source).tokens.Pairwise fun a b => ¬ b.start.Before a.stop := by
  obtain ⟨tokens, hsplits, hnode⟩ := Tree.node_of_parse htree
  have hends := Ast.build_ends hsplits.lexeme hnode
  rw [hspec] at hends
  have hspells : ∀ {text span}, Ast.Placed tokens text span → Spells source text span := by
    rintro _ _ ⟨t, ht, rfl, rfl⟩
    exact ⟨t.span, rfl, hsplits.cut ht⟩
  refine ⟨fun d hd => ?_, ?_⟩
  · obtain ⟨hwritten, hname⟩ := hends d hd
    refine ⟨hspells hname, ?_, fun m hm => ?_, ?_⟩
    · rintro e rfl v hv
      exact hspells (hwritten v hv).2
    · exact (hwritten.declarations m hm).placed.imp_right fun ⟨name, hname, hplaced⟩ =>
        ⟨name, hname, hspells hplaced⟩
    · intro x hx
      have hx := hwritten.numbers x hx
      cases x with
      | literal =>
        obtain ⟨t, ht, -, rfl, -, hloc⟩ := hx
        exact hspells ⟨t, ht, rfl, hloc⟩
      | reference => exact hspells hx
  · rw [Lexer.lex_eq_iff.2 hsplits]
    exact hsplits.ordered

/-- A constant below a comment of two lines. -/
def boundText : String := "/* a\n*/ const LIMIT = 0x10;"

theorem spans_delimit_text_bound :
    (Span.mk 2 10 2 15).cut boundText = "LIMIT" ∧ (Span.mk 2 18 2 22).cut boundText = "0x10" := by
  have hknown : ((Tree.parse boundText).toOption.bind fun tree => (Ast.build tree).toOption).map
      (·.definitions) = some [.const ⟨some ⟨2, 4, 2, 23⟩, "LIMIT",
        .literal (some ⟨2, 18, 2, 22⟩) 16 "0x10", some ⟨2, 10, 2, 15⟩⟩] := by decide +kernel
  obtain ⟨spec, hspec, hdefinitions⟩ := Option.map_eq_some_iff.1 hknown
  obtain ⟨tree, htree, hbuild⟩ := Option.bind_eq_some_iff.1 hspec
  have hok : ∀ {ε α : Type} {x : Except ε α} {a : α}, x.toOption = some a → x = .ok a := by
    rintro ε α (e | b) a ⟨⟩
    rfl
  have hspelled := (spans_delimit_text (hok htree) (hok hbuild)).1 _ (hdefinitions ▸ mem_cons_self)
  obtain ⟨_, ⟨⟩, hname⟩ := hspelled.name
  obtain ⟨_, ⟨⟩, hnumber⟩ := hspelled.numbers _ (.head _)
  exact ⟨hname, hnumber⟩

/-! ## Snippets -/

namespace Text

/-- Whether every line of a text ends as the places in it count lines: with a line feed, perhaps
behind a return. -/
def feeds : List Char → Bool
  | [] => true
  | '\r' :: '\n' :: rest => feeds rest
  | c :: rest => (!isLineBreak c || c = '\n') && feeds rest

/-- The line that a text has begun at its end, behind the start of one. -/
def begun (line text : List Char) : List Char :=
  text.foldl (fun line c => if isLineBreak c then [] else line ++ [c]) line

lemma linesFrom_head (line after : List Char) :
    (linesFrom line after)[0]?.getD [] = line.reverse ++ after.takeWhile (!isLineBreak ·) := by
  have hreturn : isLineBreak '\r' := by decide
  fun_induction linesFrom line after <;> simp_all

/-- Behind lines that end with line feeds, the line of a place is the one that is begun there, and
its column is the next of that line. -/
lemma line_at_end {before : List Char} (h : feeds before) (line : List Char) (p : Position)
    (hp : p.col = line.length + 1) (after : List Char) :
    ∃ n, p.advance before = ⟨p.line + n, (begun line before).length + 1⟩ ∧
      (linesFrom line.reverse (before ++ after))[n]?.getD [] =
        begun line before ++ after.takeWhile (!isLineBreak ·) := by
  fun_induction feeds before generalizing line p with
  | case1 =>
    refine ⟨0, by rw [Position.advance_nil, begun, foldl_nil, ← hp]; rfl, ?_⟩
    rw [nil_append, linesFrom_head, reverse_reverse, begun, foldl_nil]
  | case2 rest ih =>
    obtain ⟨n, hplace, hline⟩ := ih h [] ⟨p.line + 1, 1⟩ rfl
    exact ⟨n + 1, hplace.trans (by rw [Nat.add_right_comm]; rfl), hline⟩
  | case3 c rest hpair ih =>
    rw [Bool.and_eq_true] at h
    by_cases hfeed : c = '\n'
    · subst hfeed
      obtain ⟨n, hplace, hline⟩ := ih h.2 [] ⟨p.line + 1, 1⟩ rfl
      exact ⟨n + 1, hplace.trans (by rw [Nat.add_right_comm]; rfl), hline⟩
    · have hbreak : isLineBreak c = false := by simpa [hfeed] using h.1
      have hreturn : c ≠ '\r' := by
        rintro rfl
        cases hbreak
      obtain ⟨n, hplace, hline⟩ := ih h.2 (line ++ [c]) ⟨p.line, p.col + 1⟩ (by simp [hp])
      refine ⟨n, ?_, ?_⟩
      · rw [Position.advance_cons, Position.step, if_neg hfeed, hplace, begun, begun, foldl_cons,
          if_neg (by simp [hbreak])]
      · rw [cons_append, linesFrom, if_neg (by simp [hbreak])]
        · simpa [begun, hbreak] using hline
        · exact fun _ h _ => hreturn h

end Text

lemma Position.advance_of_line {word : List Char} (h : '\n' ∉ word) (p : Position) :
    p.advance word = ⟨p.line, p.col + word.length⟩ := by
  induction word generalizing p with
  | nil => rfl
  | cons c word ih =>
    obtain ⟨hc, hword⟩ := not_or.1 (mem_cons.not.1 h)
    rw [advance_cons, ih hword, step, if_neg (Ne.symm hc), length_cons, Nat.add_assoc, Nat.add_comm 1]

/-- Every token has characters, and all of them stand in one line. -/
lemma Lexer.IsLexeme.in_line {kind : Terminal} {w : List Char} (h : IsLexeme (.token kind) w) :
    w ≠ [] ∧ ∀ c ∈ w, Text.isLineBreak c = false := by
  have hchar : ∀ c, isNameChar c ∨ isHexDigit c → Text.isLineBreak c = false := by
    intro c h
    simp only [isNameChar, isNameStart, isHexDigit, isDigit, Bool.or_eq_true, Bool.and_eq_true,
      decide_eq_true_eq, Char.le_def, UInt32.le_iff_toNat_le, Char.ext_iff, ← UInt32.toNat_inj,
      Char.reduceVal, UInt32.reduceToNat] at h
    simp only [Text.isLineBreak, Char.toNat, Bool.or_eq_false_iff, Bool.and_eq_false_iff,
      decide_eq_false_iff_not]
    omega
  have hdigits : ∀ ds, IsDigits ds → ds ≠ [] ∧ ∀ c ∈ ds, Text.isLineBreak c = false := by
    rintro _ (all | ⟨rfl | rfl, all⟩)
    · exact ⟨cons_ne_nil _ _, fun c hc => hchar c (.inr (by simp [isHexDigit, all c hc]))⟩
    all_goals
      refine ⟨cons_ne_nil _ _, forall_mem_cons.2 ⟨by decide, forall_mem_cons.2 ⟨by decide, ?_⟩⟩⟩
      exact fun c hc => hchar c (.inr (all c hc))
  cases h with
  | spelled spelling =>
    have hall : ∀ t ∈ Terminal.all, ∀ s ∈ t.spelling?,
        s.toList ≠ [] ∧ s.toList.all (!Text.isLineBreak ·) := by
      decide +kernel
    simpa using hall kind (Terminal.mem_all kind) _ spelling
  | name first more =>
    refine ⟨cons_ne_nil _ _, forall_mem_cons.2 ⟨hchar _ (.inl (by simp [isNameChar, first])), ?_⟩⟩
    exact fun c hc => hchar c (.inl (more c hc))
  | number digits => exact hdigits _ digits
  | negative digits =>
    exact ⟨cons_ne_nil _ _, forall_mem_cons.2 ⟨by decide, (hdigits _ digits).2⟩⟩

namespace Diagnostic

/-- A headline, and below it a line with marks under a part of it. -/
def shown (filename : String) (front word back : List Char) (d : Diagnostic) : List String :=
  [d.headline .plain filename, "  | " ++ .ofList (front ++ word ++ back),
    "  ` " ++ Draw.times ' ' front.length ++ Draw.times '^' word.length]

lemma draw_eq_shown {before word : List Char} (hbefore : Text.feeds before) (hsome : word ≠ [])
    (hword : ∀ c ∈ word, Text.isLineBreak c = false) (after : List Char) {d : Diagnostic}
    {start : Position} (hstart : start = Position.first.advance before)
    (hspan : d.span = some (.between start (start.advance word))) (filename : String) :
    d.draw .plain filename (some (Text.lines (.ofList (before ++ (word ++ after))))) =
      d.shown filename (Text.begun [] before) word (after.takeWhile (!Text.isLineBreak ·)) := by
  obtain ⟨n, hplace, hline⟩ := Text.line_at_end hbefore [] .first rfl (word ++ after)
  rw [takeWhile_append_of_pos (by simpa using hword)] at hline
  have hfeed : '\n' ∉ word := fun hmem => by cases hword _ hmem
  have hstop := start.advance_of_line hfeed
  have hlength : 0 < word.length := length_pos_iff.2 hsome
  have hshown : lineAt (Text.lines (.ofList (before ++ (word ++ after)))) start.line =
      .ofList (Text.begun [] before ++ word ++ after.takeWhile (!Text.isLineBreak ·)) := by
    rw [append_assoc, ← hline, lineAt, hstart, hplace, Text.lines]
    simp [Position.first, Option.getD_map]
  have hmarks : markStart (.between start (start.advance word)) = (Text.begun [] before).length + 1 ∧
      markWidth (.between start (start.advance word)) = word.length := by
    rw [markWidth, markStart, hstop, hstart, hplace]
    simp only [Span.between, if_true]
    omega
  simp only [draw, hspan, hmarks, Style.plain, Bool.false_eq_true, if_false, Nat.add_sub_cancel]
  rw [shown, ← hshown]
  rfl

end Diagnostic

/-- A diagnostic at a token shows the line of the token, with marks under its characters, if every line
before that one ends with a line feed. -/
theorem snippet_is_line_of_token {source : String} {t : Token} (ht : t ∈ (Lexer.lex source).tokens)
    {r : Report} (hr : r.source = some source) {d : Diagnostic} (hd : d ∈ r.items)
    (hspan : d.span = some t.span) :
    ∃ before after, source.toList = before ++ (t.text.toList ++ after) ∧
      t.start = Position.first.advance before ∧ (Text.feeds before → ∃ above below,
        r.render .plain = String.intercalate "\n" (above ++ d.shown r.filename (Text.begun [] before)
          t.text.toList (after.takeWhile (!Text.isLineBreak ·)) ++ below)) := by
  have hsplits := Lexer.lex_eq_iff.1 (rfl : Lexer.lex source = ⟨_, _⟩)
  obtain ⟨before, after, htext, hstart, hstop⟩ := hsplits.place ht
  obtain ⟨hsome, hword⟩ := (hsplits.lexeme t ht).in_line
  refine ⟨before, after, htext, hstart, fun hbefore => ?_⟩
  have hlines : r.sourceLines = some (Text.lines source) := by
    rw [Report.sourceLines, hr]
    refine if_neg fun hempty => ?_
    simp [String.isEmpty_iff.1 hempty, hsome] at htext
  rw [Token.span, hstop] at hspan
  have hdrawn := Diagnostic.draw_eq_shown hbefore hsome hword after hstart hspan r.filename
  rw [← htext, String.ofList_toList, ← hlines] at hdrawn
  obtain ⟨above, below, hitems⟩ := append_of_mem hd
  refine ⟨above.flatMap (·.draw .plain r.filename r.sourceLines),
    below.flatMap (·.draw .plain r.filename r.sourceLines), ?_⟩
  rw [Report.render, Report.renderItems, hitems, flatMap_append, flatMap_cons, ← append_assoc, hdrawn]

/-- A fault at the second of two names, in the second of two lines. -/
def strayName : Diagnostic := ⟨.error, "CE0101", "stray name", some ⟨2, 2, 2, 3⟩⟩

theorem snippet_is_line_of_token_second : ∃ above below,
    Report.render ⟨some "A\n B", "stray.x", [strayName]⟩ .plain = String.intercalate "\n"
      (above ++ strayName.shown "stray.x" [' '] ['B'] [] ++ below) := by
  have ht : ⟨.name, "B", ⟨2, 2⟩, ⟨2, 3⟩⟩ ∈ (Lexer.lex "A\n B").tokens := by decide +kernel
  obtain ⟨before, after, htext, -, hshown⟩ := snippet_is_line_of_token ht
    (r := ⟨some "A\n B", "stray.x", [strayName]⟩) rfl (.head _) rfl
  rcases before with _ | ⟨_, _ | ⟨_, _ | ⟨_, _ | ⟨_, _⟩⟩⟩⟩ <;> simp at htext
  obtain ⟨rfl, rfl, rfl, rfl⟩ := htext
  exact hshown (by decide)

end Xdr
