import Xdr.Config.Document
import Xdr.Proofs.Module.Binding

/-!
# Options from documents and calls

A document and any number of calls that override options lead from one sound configuration to the
next, or to a reported fault that changes nothing.
-/

namespace Xdr

open List

/-- Identifiers between dots. The pattern lets one line feed pass behind the last of them. -/
def IsDottedPath (name : String) : Prop :=
  ∃ parts : List (List Char), parts ≠ [] ∧ (∀ part ∈ parts, isPathPart part = true) ∧
    (name.toList = ['.'].intercalate parts ∨ name.toList = ['.'].intercalate parts ++ ['\n'])

lemma dotParts_ne_nil (cs : List Char) : dotParts cs ≠ [] := by
  fun_cases dotParts cs <;> simp_all

lemma intercalate_dotParts (cs : List Char) : ['.'].intercalate (dotParts cs) = cs := by
  fun_induction dotParts cs with
  | case1 => rfl
  | case2 rest ih =>
    obtain ⟨first, others, hparts⟩ := exists_cons_of_ne_nil (dotParts_ne_nil rest)
    rw [hparts] at ih ⊢
    rw [intercalate_cons_cons, ih]
    rfl
  | case3 c rest _ first others hparts ih =>
    rw [hparts] at ih
    rw [← ih]
    cases others <;> simp [List.intercalate]
  | case4 c rest _ hparts => exact absurd hparts (dotParts_ne_nil rest)

lemma isDottedPath_of_isModulePath {name : String} (h : isModulePath name = true) :
    IsDottedPath name := by
  rw [isModulePath, all_eq_true] at h
  refine ⟨_, dotParts_ne_nil _, h, ?_⟩
  rw [intercalate_dotParts, dropFinalBreak]
  split_ifs with hlast
  · obtain ⟨front, hfront⟩ := getLast?_eq_some_iff.1 hlast
    exact .inr (by rw [hfront, dropLast_concat])
  · exact .inl rfl

def ConfigFault.IsReported (f : ConfigFault) : Prop := f.message?.isSome = true

namespace Settings

/-- Values pass exactly as what they are: each has the type of its option, and the path of the
module is one. -/
lemma check_cases (s : Settings) :
    (∃ c, s.check = .ok c ∧ s = ofConfig c ∧ IsDottedPath c.runtimeModule) ∨
      ∃ f, s.check = .error f ∧ f.IsReported := by
  obtain ⟨runtimeModule, strictPadding, exportAll, headerComment⟩ := s
  cases runtimeModule with
  | text path =>
    cases strictPadding with
    | flag strict =>
      cases exportAll with
      | flag all =>
        cases headerComment with
        | text header =>
          by_cases hmodule : isModulePath path = true
          · exact .inl ⟨_, if_pos hmodule, rfl, isDottedPath_of_isModulePath hmodule⟩
          · exact .inr ⟨_, if_neg hmodule, rfl⟩
        | _ => exact .inr ⟨_, rfl, rfl⟩
      | _ => exact .inr ⟨_, rfl, rfl⟩
    | _ => exact .inr ⟨_, rfl, rfl⟩
  | _ => exact .inr ⟨_, rfl, rfl⟩

end Settings

namespace Config

abbrev Overrides := List (String × Option Setting)

def Overrides.Known (o : Overrides) : Prop := ∀ x ∈ o, x.1 ∈ Settings.names

/-- The overrides that are given: a name without a value stands for none. -/
def Overrides.given (o : Overrides) : List (String × Setting) :=
  o.filterMap fun x => x.2.map (x.1, ·)

def overridden (c : Config) (options : List (String × Setting)) : Settings :=
  options.foldl (fun s o => s.set o.1 o.2) (.ofConfig c)

/-- The configuration after calls, each of which is made on what the ones before it left. -/
def after (c : Config) (calls : List Overrides) : Config :=
  calls.foldl (fun c o => (c.withSettings o.given).toOption.getD c) c

lemma withSettings_cases (c : Config) {options : List (String × Setting)}
    (hknown : ∀ o ∈ options, o.1 ∈ Settings.names) :
    (∃ c', c.withSettings options = .ok c' ∧ c.overridden options = .ofConfig c' ∧
      IsDottedPath c'.runtimeModule) ∨ ∃ f, c.withSettings options = .error f ∧ f.IsReported := by
  have hall : (options.all fun o => Settings.names.contains o.1) = true := by
    simpa [all_eq_true] using hknown
  rw [withSettings, if_pos hall]
  exact (c.overridden options).check_cases

lemma Overrides.Known.given {o : Overrides} (h : o.Known) : ∀ x ∈ o.given, x.1 ∈ Settings.names := by
  intro x hx
  obtain ⟨y, hy, hgiven⟩ := mem_filterMap.1 hx
  obtain ⟨v, -, rfl⟩ := Option.map_eq_some_iff.1 hgiven
  exact h y hy

/-- The table with the options: the document itself or, in a project file, the one below `tool`.
Without that the defaults hold; where something else stands in its place there is none. -/
def optionTable? (project : Bool) (t : Toml.Table) : Option Toml.Table :=
  if !project then some t
  else
    match t.find? "tool" with
    | none => some []
    | some (.table tool) =>
      match Toml.Table.find? tool "fastxdr" with
      | none => some []
      | some (.table options) => some options
      | some _ => none
    | some _ => none

def settingsOf (t : Toml.Table) : List (String × Setting) := t.map fun (name, v) => (name, settingOf v)

lemma ofDocument_of_optionTable? (source : String) {text : String} {project : Bool}
    {t options : Toml.Table} (ht : Toml.read text = .ok t) (ho : optionTable? project t = some options) :
    ofDocument source text project = (ofTable source options).mapError .config := by
  have htable : (if project then ofProject source t else ofTable source t) = ofTable source options := by
    have hdefault : ofTable source [] = .ok {} := rfl
    revert ho
    fun_cases optionTable? project t <;> rintro ⟨⟩ <;> simp_all [ofProject, ofValue]
  rw [ofDocument, ht]
  dsimp only
  rw [htable]
  cases ofTable source options <;> rfl

lemma ofTable_cases (source : String) (options : Toml.Table) :
    (∃ c, ofTable source options = .ok c ∧
      ({} : Config).overridden (settingsOf options) = .ofConfig c ∧ IsDottedPath c.runtimeModule) ∨
      ∃ f, ofTable source options = .error f ∧ f.IsReported := by
  have hdefinition : ofTable source options = ofSettings source (settingsOf options) := rfl
  rw [hdefinition, ofSettings]
  split_ifs with hempty
  · refine withSettings_cases {} fun o ho => ?_
    by_contra hunknown
    have hmem : o.1 ∈ unknownOptions ((settingsOf options).map (·.1)) := by
      rw [unknownOptions, mem_sortTexts, mem_eraseDups, mem_filter]
      exact ⟨mem_map_of_mem ho, by simpa using hunknown⟩
    rw [isEmpty_iff.1 hempty] at hmem
    cases hmem
  · exact .inr ⟨_, rfl, rfl⟩

/-- Reading a document that keeps its options in a table and calling for other options any number of
times: each step ends in a configuration that has what was asked for, every value of the type of its
option and the module a dotted path, or in a reported fault that leaves the configuration as it was. -/
theorem document_and_calls_sound (source : String) {text : String} {project : Bool}
    {t options : Toml.Table} (ht : Toml.read text = .ok t) (ho : optionTable? project t = some options) :
    (∃ f, ofDocument source text project = .error (.config f) ∧ f.IsReported) ∨
    ∃ c, ofDocument source text project = .ok c ∧
      ({} : Config).overridden (settingsOf options) = .ofConfig c ∧ IsDottedPath c.runtimeModule ∧
      ∀ calls : List Overrides, (∀ o ∈ calls, o.Known) → ∀ o : Overrides, o.Known →
        (∃ c', (c.after calls).withSettings o.given = .ok c' ∧
          (c.after calls).overridden o.given = .ofConfig c' ∧ IsDottedPath c'.runtimeModule ∧
          c.after (calls ++ [o]) = c') ∨
        ∃ f, (c.after calls).withSettings o.given = .error f ∧ f.IsReported ∧
          c.after (calls ++ [o]) = c.after calls := by
  rw [ofDocument_of_optionTable? source ht ho]
  rcases ofTable_cases source options with ⟨c, hc, hoptions, hpath⟩ | ⟨f, hf, hreported⟩
  · refine .inr ⟨c, by rw [hc]; rfl, hoptions, hpath, fun calls _ o hknown => ?_⟩
    have hafter : c.after (calls ++ [o]) =
        ((c.after calls).withSettings o.given).toOption.getD (c.after calls) := by
      rw [after, foldl_append]
      rfl
    rcases (c.after calls).withSettings_cases hknown.given with
      ⟨c', hcall, hgiven, hpath⟩ | ⟨f, hcall, hreported⟩
    · exact .inl ⟨c', hcall, hgiven, hpath, by rw [hafter, hcall]; rfl⟩
    · exact .inr ⟨f, hcall, hreported, by rw [hafter, hcall]; rfl⟩
  · exact .inl ⟨f, by rw [hf]; rfl, hreported⟩

/-- A project file that asks for strict padding. -/
def paddingDocument : String := "[tool.fastxdr]\nstrict_padding = true\n"

theorem document_and_calls_sound_padding :
    ∃ c, ofDocument "pyproject.toml" paddingDocument true = .ok c ∧
      ({} : Config).overridden [("strict_padding", .flag true)] = .ofConfig c := by
  have hloads : (ofDocument "pyproject.toml" paddingDocument true).toOption.isSome = true := by
    decide +kernel
  have hread : Toml.read paddingDocument =
      .ok [("tool", .table [("fastxdr", .table [("strict_padding", .bool true)])])] := rfl
  rcases document_and_calls_sound "pyproject.toml" hread
    (show optionTable? true _ = some [("strict_padding", .bool true)] from rfl) with
    ⟨f, hf, -⟩ | ⟨c, hc, hoptions, -, -⟩
  · rw [hf] at hloads
    cases hloads
  · exact ⟨c, hc, hoptions⟩

end Config

end Xdr
