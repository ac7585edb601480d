import Xdr.Compilation
import Xdr.Proofs.Lexing
import Xdr.Proofs.Parsing.Table
import Xdr.Proofs.Parsing.Completeness

/-!
# The parser is exact

A text has a tree exactly when it splits into lexemes and its tokens are a specification. The tree
is what remains of their one derivation.
-/

namespace Xdr

open Automaton Grammar Lexer List

variable {d : Derivation} {tokens : List Token} {source : String}
  {stopped : Option (Char × Position)}

/-- The stretch from the first to the last of some tokens. -/
def extentOf (tokens : List Token) : Extent :=
  tokens.head?.bind fun a => tokens.getLast?.map fun b => (a.start, b.stop)

lemma extentOf_append (us vs : List Token) :
    extentOf (us ++ vs) = (extentOf us).join (extentOf vs) := by
  cases us with
  | nil => rfl
  | cons u us =>
    cases vs with
    | nil => simp [extentOf, getLast?_cons, Extent.join]
    | cons v vs => simp [extentOf, getLast?_append, getLast?_cons, Extent.join]

def Token.leaf (t : Token) : Tree := .leaf t.kind.label t.text (some t.span)

namespace Derivation

mutual

/-- `Shows d ts`: the trees `ts` are what remains of the derivation `d`. Names and numbers stay as
leaves; a node is named after its rule, and the children of a rule without a name take its place. -/
inductive Shows : Derivation → List Tree → Prop
  | kept {t : Token} (kind : t.kind = .name ∨ t.kind = .number) : Shows (leaf t) [t.leaf]
  | dropped {t : Token} (name : t.kind ≠ .name) (number : t.kind ≠ .number) : Shows (leaf t) []
  | named {r : Nat} {p : Production} {label : String} {children : List Derivation}
      {trees : List Tree} (rule : productions[r]? = some p) (name : p.label = some label)
      (inner : ShowsAll children trees) :
      Shows (node r children) [.node label trees (extentOf (wordAll children)).span]
  | unnamed {r : Nat} {p : Production} {children : List Derivation} {trees : List Tree}
      (rule : productions[r]? = some p) (name : p.label = none)
      (inner : ShowsAll children trees) : Shows (node r children) trees

/-- `ShowsAll ds ts`: the same for neighbours. -/
inductive ShowsAll : List Derivation → List Tree → Prop
  | nil : ShowsAll [] []
  | cons {d : Derivation} {ds : List Derivation} {trees more : List Tree} (first : Shows d trees)
      (rest : ShowsAll ds more) : ShowsAll (d :: ds) (trees ++ more)

end

mutual

lemma project_extent : ∀ d : Derivation, d.project.2 = extentOf d.word
  | leaf t => rfl
  | node r children => by
    have h := projectAll_extent children
    rw [project, word, ← h]
    dsimp only
    split <;> rfl

lemma projectAll_extent : ∀ ds : List Derivation, (projectAll ds).2 = extentOf (wordAll ds)
  | [] => rfl
  | d :: ds => by
    rw [projectAll, wordAll, extentOf_append, ← project_extent d, ← projectAll_extent ds]

end

lemma isKept_iff {t : Terminal} : t.isKept = true ↔ t = .name ∨ t = .number := by
  cases t <;> simp [Terminal.isKept]

lemma project_node {r : Nat} {p : Production} (hp : productions[r]? = some p)
    (children : List Derivation) :
    (node r children).project.1 =
      match p.label with
      | some label => [.node label (projectAll children).1 (extentOf (wordAll children)).span]
      | none => (projectAll children).1 := by
  rw [project, ← projectAll_extent]
  simp only [hp, Option.bind_some]
  cases p.label <;> rfl

mutual

lemma shows_project : ∀ d : Derivation, d.valid = true → d.Shows d.project.1
  | leaf t, _ => by
    by_cases hkept : t.kind = .name ∨ t.kind = .number
    · rw [project, if_pos (isKept_iff.2 hkept)]
      exact .kept hkept
    · rw [project, if_neg (mt isKept_iff.1 hkept)]
      exact .dropped (fun h => hkept (.inl h)) (fun h => hkept (.inr h))
  | node r children, hvalid => by
    obtain ⟨⟨p, hp, -⟩, hall⟩ := valid_node_iff.1 hvalid
    have hinner := showsAll_project children hall
    rw [project_node hp]
    cases hlabel : p.label with
    | some label => exact .named hp hlabel hinner
    | none => exact .unnamed hp hlabel hinner

lemma showsAll_project : ∀ ds : List Derivation, validAll ds = true →
    ShowsAll ds (projectAll ds).1
  | [], _ => .nil
  | d :: ds, hvalid => by
    rw [validAll, Bool.and_eq_true] at hvalid
    exact .cons (shows_project d hvalid.1) (showsAll_project ds hvalid.2)

end

mutual

lemma project_of_shows : ∀ {d : Derivation} {ts : List Tree}, d.Shows ts → ts = d.project.1
  | _, _, .kept kind => by
    rw [project, if_pos (isKept_iff.2 kind)]
    rfl
  | _, _, .dropped name number => by
    rw [project, if_neg (mt isKept_iff.1 (not_or.2 ⟨name, number⟩))]
  | _, _, .named rule name inner | _, _, .unnamed rule name inner => by
    rw [project_node rule, name, ← projectAll_of_shows inner]

lemma projectAll_of_shows : ∀ {ds : List Derivation} {ts : List Tree}, ShowsAll ds ts →
    ts = (projectAll ds).1
  | _, _, .nil => rfl
  | _, _, .cons first rest => by
    rw [project_of_shows first, projectAll_of_shows rest]
    rfl

end

end Derivation

namespace Tree

mutual

def leaves : Tree → List Tree
  | leaf kind text span => [leaf kind text span]
  | node _ children _ => leavesAll children

def leavesAll : List Tree → List Tree
  | [] => []
  | t :: ts => t.leaves ++ leavesAll ts

end

lemma leavesAll_append (ts us : List Tree) :
    leavesAll (ts ++ us) = leavesAll ts ++ leavesAll us := by
  induction ts with
  | nil => rfl
  | cons t ts ih => simp [leavesAll, ih]

end Tree

namespace Derivation

mutual

lemma leaves_of_shows : ∀ {d : Derivation} {ts : List Tree}, d.Shows ts →
    Tree.leavesAll ts = (d.word.filter (·.kind.isKept)).map Token.leaf
  | _, _, .kept kind => by simp [word, isKept_iff.2 kind, Tree.leavesAll, Token.leaf, Tree.leaves]
  | _, _, .dropped name number => by
    have hkept := mt isKept_iff.1 (not_or.2 ⟨name, number⟩)
    simp [word, hkept, Tree.leavesAll]
  | _, _, .named _ _ inner => by
    rw [Tree.leavesAll, Tree.leavesAll, append_nil, Tree.leaves, word, leaves_of_showsAll inner]
  | _, _, .unnamed _ _ inner => by rw [word, leaves_of_showsAll inner]

lemma leaves_of_showsAll : ∀ {ds : List Derivation} {ts : List Tree}, ShowsAll ds ts →
    Tree.leavesAll ts = ((wordAll ds).filter (·.kind.isKept)).map Token.leaf
  | _, _, .nil => rfl
  | _, _, .cons first rest => by
    rw [Tree.leavesAll_append, wordAll, filter_append, map_append,
      leaves_of_shows first, leaves_of_showsAll rest]

end

lemma Spells.project (h : d.Spells tokens) : ∃ t, d.project.1 = [t] := by
  have hlabels : ∀ p ∈ productions, p.lhs = .specification → p.label.isSome := by decide +kernel
  have hsymbol := h.symbol
  cases d with
  | leaf t => cases hsymbol
  | node r children =>
    obtain ⟨⟨p, hp, -⟩, -⟩ := valid_node_iff.1 h.valid
    rw [symbol_node hp, Symbol.nonterminal.injEq] at hsymbol
    obtain ⟨label, hlabel⟩ :=
      Option.isSome_iff_exists.1 (hlabels p (Array.mem_of_getElem? hp) hsymbol)
    exact ⟨_, by rw [project_node hp, hlabel]⟩

lemma Spells.shows (h : d.Spells tokens) : ∃ t, d.Shows [t] := by
  obtain ⟨t, ht⟩ := h.project
  exact ⟨t, ht ▸ shows_project d h.valid⟩

end Derivation

open Xdr.Derivation

lemma Parser.derive_cases (tokens : List Token) :
    (∃ d, derive tokens = .ok d ∧ d.Spells tokens) ∨
    (∃ k before t after, derive tokens = .error ⟨k, some t⟩ ∧ tokens = before ++ t :: after ∧
      IsViable (kinds before) ∧ ¬ IsViable (kinds (before ++ [t]))) ∨
    (∃ k, derive tokens = .error ⟨k, none⟩ ∧ IsViable (kinds tokens) ∧
      ¬ IsSpecification (kinds tokens)) :=
  run_cases certificate tokens (by omega)

lemma Parser.derive_of_spells (h : d.Spells tokens) : derive tokens = .ok d :=
  run_of_spells certificate h (by omega)

lemma Tree.outcome_ok {t : Tree} (h : d.project.1 = [t]) :
    outcome ⟨tokens, none⟩ (.ok d) = .ok t := by
  show Except.ok (d.project.1.headD _) = .ok t
  rw [h]
  rfl

lemma Tree.parse_eq (h : Splits .first source.toList tokens stopped) :
    Tree.parse source = Tree.outcome ⟨tokens, stopped⟩ (Parser.derive tokens) := by
  rw [parse, lex_eq_iff.2 h]

lemma Tree.parse_ok_iff {tree : Tree} :
    Tree.parse source = .ok tree ↔ ∃ tokens, ∃ d : Derivation,
      Splits .first source.toList tokens none ∧ d.Spells tokens ∧ d.Shows [tree] := by
  constructor
  · intro h
    obtain ⟨tokens, stopped, hsplits⟩ := exists_splits .first source.toList
    rw [Tree.parse_eq hsplits] at h
    rcases Parser.derive_cases tokens with ⟨d, hd, hspells⟩ | ⟨k, _, t, _, hd, -⟩ | ⟨k, hd, -⟩
    · rw [hd] at h
      cases stopped with
      | some cp => cases h
      | none =>
        obtain ⟨t, ht⟩ := hspells.project
        rw [outcome_ok ht] at h
        cases h
        exact ⟨tokens, d, hsplits, hspells, ht ▸ shows_project d hspells.valid⟩
    · rw [hd] at h
      cases h
    · rw [hd] at h
      cases stopped <;> cases h
  · rintro ⟨tokens, d, hsplits, hspells, hshows⟩
    rw [Tree.parse_eq hsplits, Parser.derive_of_spells hspells,
      outcome_ok (project_of_shows hshows).symm]

/-- Parsing is exact: a text has a tree exactly when it splits into tokens, blanks, comments and
pass-through lines, and its tokens are a specification. The tree is what remains of the one
derivation of the tokens, with their names and numbers as its leaves in order. -/
theorem parse_exact (source : String) :
    ((∃ tree, Tree.parse source = .ok tree) ↔
      ∃ tokens, Splits .first source.toList tokens none ∧ IsSpecification (kinds tokens)) ∧
    (∀ tree, Tree.parse source = .ok tree ↔ ∃ tokens, ∃ d : Derivation,
      Splits .first source.toList tokens none ∧ d.Spells tokens ∧ d.Shows [tree] ∧
      tree.leaves = (tokens.filter (·.kind.isKept)).map Token.leaf) ∧
    ∀ tokens, ∀ d e : Derivation, d.Spells tokens → e.Spells tokens → d = e := by
  refine ⟨⟨?_, ?_⟩, fun tree => ⟨?_, ?_⟩, ?_⟩
  · rintro ⟨tree, h⟩
    obtain ⟨tokens, d, hsplits, hspells, -⟩ := Tree.parse_ok_iff.1 h
    exact ⟨tokens, hsplits, isSpecification_iff.2 ⟨d, hspells⟩⟩
  · rintro ⟨tokens, hsplits, hspec⟩
    obtain ⟨d, hspells⟩ := isSpecification_iff.1 hspec
    obtain ⟨t, hshows⟩ := hspells.shows
    exact ⟨t, Tree.parse_ok_iff.2 ⟨tokens, d, hsplits, hspells, hshows⟩⟩
  · intro h
    obtain ⟨tokens, d, hsplits, hspells, hshows⟩ := Tree.parse_ok_iff.1 h
    have hleaves := leaves_of_shows hshows
    rw [Tree.leavesAll, Tree.leavesAll, append_nil, hspells.word] at hleaves
    exact ⟨tokens, d, hsplits, hspells, hshows, hleaves⟩
  · rintro ⟨tokens, d, hsplits, hspells, hshows, -⟩
    exact Tree.parse_ok_iff.2 ⟨tokens, d, hsplits, hspells, hshows⟩
  · intro tokens d e hd he
    exact Parser.spells_unique certificate hd he

/-- The token of a sequence at which it can no longer become a specification. -/
def WrongToken (tokens : List Token) (t : Token) : Prop :=
  ∃ before after, tokens = before ++ t :: after ∧
    IsViable (kinds before) ∧ ¬ IsViable (kinds (before ++ [t]))

/-- Tokens that can become a specification, in front of a character that begins no lexeme. -/
def WrongCharacter (tokens : List Token) (stopped : Option (Char × Position)) (p : Position) :
    Prop :=
  (∃ c, stopped = some (c, p)) ∧ IsViable (kinds tokens)

/-- The tokens of a whole text that can become a specification but are none. -/
def Unfinished (tokens : List Token) (stopped : Option (Char × Position)) : Prop :=
  stopped = none ∧ IsViable (kinds tokens) ∧ ¬ IsSpecification (kinds tokens)

lemma Grammar.IsViable.of_append {u v : List Terminal} (h : IsViable (u ++ v)) : IsViable u := by
  obtain ⟨rest, hrest⟩ := h
  exact ⟨v ++ rest, by rwa [← append_assoc]⟩

lemma WrongToken.not_isViable {t : Token} (h : WrongToken tokens t) :
    ¬ IsViable (kinds tokens) := by
  obtain ⟨before, after, rfl, -, hnot⟩ := h
  intro hviable
  rw [append_cons, kinds_append] at hviable
  exact hnot hviable.of_append

lemma Tree.parse_error_cases (hsplits : Splits .first source.toList tokens stopped)
    (hnone : ∀ tree, Tree.parse source ≠ .ok tree) :
    (∃ t expected, Tree.parse source = .error (.unexpectedToken t expected) ∧
      WrongToken tokens t) ∨
    (∃ c p, Tree.parse source = .error (.unexpectedCharacter c p) ∧
      WrongCharacter tokens stopped p) ∨
    (∃ last expected, Tree.parse source = .error (.unexpectedEnd last expected) ∧
      Unfinished tokens stopped) := by
  rcases Parser.derive_cases tokens with ⟨d, hd, hspells⟩ | ⟨k, before, t, after, hd, hcases⟩ |
    ⟨k, hd, hviable, hnot⟩
  · cases stopped with
    | none =>
      obtain ⟨t, hshows⟩ := hspells.shows
      exact absurd (parse_ok_iff.2 ⟨tokens, d, hsplits, hspells, hshows⟩) (hnone t)
    | some cp =>
      obtain ⟨c, p⟩ := cp
      refine .inr (.inl ⟨c, p, by rw [parse_eq hsplits, hd]; rfl, ⟨c, rfl⟩, [], ?_⟩)
      rw [append_nil]
      exact isSpecification_iff.2 ⟨d, hspells⟩
  · exact .inl ⟨t, _, by rw [parse_eq hsplits, hd]; rfl, before, after, hcases⟩
  · cases stopped with
    | none =>
      exact .inr (.inr ⟨_, _, by rw [parse_eq hsplits, hd]; rfl, rfl, hviable, hnot⟩)
    | some cp =>
      obtain ⟨c, p⟩ := cp
      exact .inr (.inl ⟨c, p, by rw [parse_eq hsplits, hd]; rfl, ⟨c, rfl⟩, hviable⟩)

lemma compile_of_fault {filename : String} {fault : ParseFault}
    (h : Tree.parse source = .error fault) :
    (compile filename source).outcome =
      .error (.reported ⟨some source, filename, [fault.finding.diagnostic]⟩) := by
  have htree : treeOf ⟨some source, filename, []⟩ source =
      .error (.reported ⟨some source, filename, [fault.finding.diagnostic]⟩) := by
    rw [treeOf, h]
    rfl
  rw [compile, htree]

/-- A text without a tree is reported at the first impossible place, and exactly one case holds: a
token that nothing can continue, although the tokens before it could be continued; a character that
begins no lexeme behind tokens that can be continued; or the end of a text whose tokens can be
continued but are no specification. -/
theorem fault_at_first_impossible_place (filename source : String)
    (hrejected : ∀ tree, Tree.parse source ≠ .ok tree) :
    ∃ (d : Diagnostic) (tokens : List Token) (stopped : Option (Char × Position)),
      (compile filename source).outcome = .error (.reported ⟨some source, filename, [d]⟩) ∧
      Splits .first source.toList tokens stopped ∧
      ((d.code = "CE0101" ∧
          (∃ t, WrongToken tokens t ∧ d.span = some (.at t.start (max 1 t.text.length))) ∧
          (¬ ∃ p, WrongCharacter tokens stopped p) ∧ ¬ Unfinished tokens stopped) ∨
        (d.code = "CE0102" ∧ (∃ p, WrongCharacter tokens stopped p ∧ d.span = some (.at p 1)) ∧
          (¬ ∃ t, WrongToken tokens t) ∧ ¬ Unfinished tokens stopped) ∨
        (d.code = "CE0103" ∧ Unfinished tokens stopped ∧
          (¬ ∃ t, WrongToken tokens t) ∧ ¬ ∃ p, WrongCharacter tokens stopped p)) := by
  obtain ⟨tokens, stopped, hsplits⟩ := exists_splits .first source.toList
  rcases Tree.parse_error_cases hsplits hrejected with
    ⟨t, expected, hparse, hwrong⟩ | ⟨c, p, hparse, hwrong⟩ | ⟨last, expected, hparse, hunfinished⟩
  · refine ⟨_, tokens, stopped, compile_of_fault hparse, hsplits,
      .inl ⟨rfl, ⟨t, hwrong, rfl⟩, ?_, ?_⟩⟩
    · rintro ⟨p, -, hviable⟩
      exact hwrong.not_isViable hviable
    · rintro ⟨-, hviable, -⟩
      exact hwrong.not_isViable hviable
  · refine ⟨_, tokens, stopped, compile_of_fault hparse, hsplits,
      .inr (.inl ⟨rfl, ⟨p, hwrong, rfl⟩, ?_, ?_⟩)⟩
    · rintro ⟨t, ht⟩
      exact ht.not_isViable hwrong.2
    · rintro ⟨hnone, -⟩
      obtain ⟨⟨c, hsome⟩, -⟩ := hwrong
      rw [hnone] at hsome
      cases hsome
  · refine ⟨_, tokens, stopped, compile_of_fault hparse, hsplits,
      .inr (.inr ⟨rfl, hunfinished, ?_, ?_⟩)⟩
    · rintro ⟨t, ht⟩
      exact ht.not_isViable hunfinished.2.1
    · rintro ⟨p, ⟨c, hsome⟩, -⟩
      rw [hunfinished.1] at hsome
      cases hsome

/-- A constant without a value is reported at the mark that stands in the value's place. -/
theorem fault_at_first_impossible_place_missing_value :
    (∀ tree, Tree.parse "const LIMIT = ;" ≠ .ok tree) ∧
      ∃ d, (compile "limits.x" "const LIMIT = ;").outcome =
          .error (.reported ⟨some "const LIMIT = ;", "limits.x", [d]⟩) ∧
        (d.code = "CE0101" ∨ d.code = "CE0102" ∨ d.code = "CE0103") := by
  have hfault : (Tree.parse "const LIMIT = ;").toOption.isNone = true := by decide +kernel
  have hrejected : ∀ tree, Tree.parse "const LIMIT = ;" ≠ .ok tree := by
    intro tree h
    rw [h] at hfault
    cases hfault
  obtain ⟨d, tokens, stopped, hreport, -, hcases⟩ :=
    fault_at_first_impossible_place "limits.x" "const LIMIT = ;" hrejected
  refine ⟨hrejected, d, hreport, ?_⟩
  rcases hcases with ⟨hcode, -⟩ | ⟨hcode, -⟩ | ⟨hcode, -⟩
  · exact .inl hcode
  · exact .inr (.inl hcode)
  · exact .inr (.inr hcode)

end Xdr
