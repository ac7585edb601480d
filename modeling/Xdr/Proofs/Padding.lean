import Xdr.Proofs.Codec.Traced
import Xdr.Proofs.Prefixes

/-!
# Strict padding

Strict decoding differs from lax decoding in one way only: it refuses padding that is not zero.
-/

namespace Xdr

namespace Module

/-- Lax decoding of an instance of a class, and the padding that it passes over until it ends. -/
def traceRun (m : Module) (key : ClassKey) (data : List UInt8) :
    Except Fault Value × Input × List Gap :=
  m.trace (m.levels data.length) key (Input.ofBytes data, [])

/-- The padding that lax decoding by a type passes over; enums have none. -/
def paddingRead (m : Module) (type : Value) (data : List UInt8) : List Gap :=
  match type with
  | .cls key => if key.isEnum then [] else (m.traceRun key data).2.2
  | _ => []

lemma checkKind_ne_invalidPadding (m : Module) (key : ClassKey) (v : Value) (start : Int) :
    m.checkKind key v ≠ .error (.decode (.invalidPadding start)) := by
  have harm : m.checkArm key v ≠ .error (.decode (.invalidPadding start)) := by
    unfold checkArm
    split
    · split_ifs
      · simp
      · split
        · simp
        · split
          · rename_i f hf
            exact fun h => Unpack.quiet_shown _ _ (Except.error.inj h ▸ hf)
          · simp
        · simp
    · simp
  unfold checkKind
  split
  · exact harm
  · exact harm
  · simp [pure, Except.pure]

end Module

lemma Generates.fair_lax {spec : Ast.Specification} {c : Config} {s : Schema} {m : Module}
    (h : Generates spec c s m) :
    ∀ (key : ClassKey) body, m.body? key.reader = some body → body.Fair m .lax := by
  obtain ⟨l, hbody⟩ := h.exists_linker
  intro key body hb
  obtain ⟨t, -, size, hentry⟩ := hbody key.reader body hb
  refine ⟨fun form hform => ?_, Linker.quiet_of_mem_bodies hentry, ?_⟩
  · obtain ⟨hforward, hquiet⟩ := Linker.forward_and_quiet hentry hform
    exact ⟨hforward, hquiet, form.names_of_forall fun _ => trivial⟩
  cases body with
  | union u => exact fun _ _ _ _ _ _ _ _ => trivial
  | _ => trivial

namespace Generates

variable {spec : Ast.Specification} {c : Config} {s : Schema} {m : Module}
  (hgen : Generates spec c s m)

include hgen

lemma strict_instance (key : ClassKey) (data : List UInt8) :
    ((m.traceRun key data).1, (m.traceRun key data).2.1) = m.decodeRun false key data ∧
    (∀ g ∈ (m.traceRun key data).2.2, g.Lies data 0 (m.decodeRun false key data).2.offset) ∧
    ((∀ g ∈ (m.traceRun key data).2.2, g.IsClean) ∧
        m.decodeInstance true key data = m.decodeInstance false key data ∨
      ∃ before g behind, (m.traceRun key data).2.2 = before ++ g :: behind ∧
        (∀ h ∈ before, h.IsClean) ∧ ¬ g.IsClean ∧
        m.decodeInstance true key data = .error (.decode (.invalidPadding g.start))) := by
  obtain ⟨gaps, htrace, hverdict, hlies⟩ :=
    (Watched.unpack hgen.fair_lax (m.levels data.length) key).outcome _ (Input.stands_ofBytes data)
  have hrun : m.traceRun key data =
      ((m.decodeRun false key data).1, (m.decodeRun false key data).2, gaps) := htrace []
  rw [hrun]
  refine ⟨rfl, hlies, ?_⟩
  change Verdict gaps (m.decodeRun false key data) (m.decodeRun true key data) at hverdict
  unfold Module.decodeInstance
  generalize m.decodeRun true key data = strict at hverdict ⊢
  cases hverdict with
  | same hclean => exact .inl ⟨hclean, rfl⟩
  | @refused before behind g j hgaps hbefore hg => exact .inr ⟨before, g, behind, hgaps, hbefore, hg, rfl⟩

lemma decodeAs_lax_ne (type : Value) (data : List UInt8) (start : Int) :
    m.decodeAs type (some false) data ≠ .error (.decode (.invalidPadding start)) := by
  have henum : ∀ key, m.decodeEnum key data ≠ .error (.decode (.invalidPadding start)) := by
    intro key h
    unfold Module.decodeEnum at h
    split at h
    · cases h
    · rename_i e _
      have hpoints : Pointing .lax (Read.enum e) (Input.ofBytes data) := .enum trivial
      split at h
      · cases h
      · rename_i f j hrun
        cases h
        have hfault := (hpoints (Input.stands_ofBytes data) _ _ hrun).2 _ rfl
        exact absurd hfault.1 (by simp [Blame.lax])
  cases type with
  | member name variant n => exact henum (.enum name)
  | cls key =>
    by_cases hkey : key.isEnum = true
    · rw [Module.decodeAs, if_pos hkey]
      exact henum key
    · rw [m.decodeAs_cls (Bool.eq_false_iff.2 hkey)]
      intro h
      cases hfound : m.decodeInstance false key data with
      | error f =>
        simp only [hfound, bind, Except.bind] at h
        cases h
        obtain ⟨j, hrun⟩ := Read.run_of_found_error
          (r := fun size => m.unpack false (m.levels size) key) hfound
        have hpoints := m.pointing_unpack (by simp) hgen.fair_lax (m.levels data.length) key
          (Input.ofBytes data) (Input.stands_ofBytes data) _ _ hrun
        exact absurd (hpoints.2 _ rfl).1 (by simp [Blame.lax])
      | ok found =>
        simp only [hfound, bind, Except.bind] at h
        cases hcheck : m.checkKind key found.1 with
        | error f =>
          rw [hcheck] at h
          cases h
          exact m.checkKind_ne_invalidPadding key found.1 start hcheck
        | ok a =>
          rw [hcheck] at h
          cases h
  | _ => simp [Module.decodeAs]

lemma strict_cases (type : Value) (data : List UInt8) :
    (∀ g ∈ m.paddingRead type data, g.IsClean) ∧
        m.decodeAs type (some true) data = m.decodeAs type (some false) data ∨
      ∃ before g behind, m.paddingRead type data = before ++ g :: behind ∧
        (∀ h ∈ before, h.IsClean) ∧ ¬ g.IsClean ∧
        m.decodeAs type (some true) data = .error (.decode (.invalidPadding g.start)) := by
  cases type with
  | cls key =>
    by_cases hkey : key.isEnum = true
    · refine .inl ⟨?_, ?_⟩
      · simp [Module.paddingRead, hkey]
      · rw [Module.decodeAs, Module.decodeAs, if_pos hkey, if_pos hkey]
    · have hnot := Bool.eq_false_iff.2 hkey
      rw [Module.paddingRead, if_neg hkey, m.decodeAs_cls hnot, m.decodeAs_cls hnot]
      rcases (hgen.strict_instance key data).2.2 with ⟨hclean, hsame⟩ |
        ⟨before, g, behind, hgaps, hbefore, hg, hrefused⟩
      · exact .inl ⟨hclean, by rw [hsame]⟩
      · exact .inr ⟨before, g, behind, hgaps, hbefore, hg, by rw [hrefused]; rfl⟩
  | _ => exact .inl ⟨by simp [Module.paddingRead], rfl⟩

end Generates

/-- Strict decoding gives what lax decoding gives, or it complains about padding; and it complains
exactly when some padding that lax decoding passes over, before it comes to its end, is not zero. The
place is then that of the first such padding. -/
theorem strict_only_adds_padding_faults {spec : Ast.Specification} {c : Config} {s : Schema} {m : Module}
    (hgen : Generates spec c s m) (type : Value) (data : List UInt8) :
    (m.decodeAs type (some true) data = m.decodeAs type (some false) data ∨
      ∃ start, m.decodeAs type (some true) data = .error (.decode (.invalidPadding start))) ∧
    ((∃ start, m.decodeAs type (some true) data = .error (.decode (.invalidPadding start))) ↔
      ∃ g ∈ m.paddingRead type data, ∃ b ∈ g.bytes, b ≠ 0) ∧
    (∀ start, m.decodeAs type (some true) data = .error (.decode (.invalidPadding start)) →
      ∃ before g behind, m.paddingRead type data = before ++ g :: behind ∧ g.start = start ∧
        ¬ g.IsClean ∧ ∀ h ∈ before, h.IsClean) ∧
    ∀ key, ((m.traceRun key data).1, (m.traceRun key data).2.1) = m.decodeRun false key data ∧
      ∀ g ∈ (m.traceRun key data).2.2, g.Lies data 0 (m.decodeRun false key data).2.offset := by
  have hdirty : ∀ g : Gap, ¬ g.IsClean ↔ ∃ b ∈ g.bytes, b ≠ 0 := fun g => by simp [Gap.IsClean]
  have hlax := hgen.decodeAs_lax_ne type data
  refine ⟨?_, ⟨?_, ?_⟩, ?_, fun key => ?_⟩
  · rcases hgen.strict_cases type data with ⟨-, hsame⟩ | ⟨_, g, _, -, -, -, hrefused⟩
    · exact .inl hsame
    · exact .inr ⟨g.start, hrefused⟩
  · rintro ⟨start, hstart⟩
    rcases hgen.strict_cases type data with ⟨-, hsame⟩ | ⟨before, g, behind, hgaps, -, hg, -⟩
    · exact absurd (hsame.symm.trans hstart) (hlax start)
    · exact ⟨g, by simp [hgaps], (hdirty g).1 hg⟩
  · rintro ⟨g, hg, hbytes⟩
    rcases hgen.strict_cases type data with ⟨hclean, -⟩ | ⟨_, h, _, -, -, -, hrefused⟩
    · exact absurd (hclean g hg) ((hdirty g).2 hbytes)
    · exact ⟨h.start, hrefused⟩
  · intro start hstart
    rcases hgen.strict_cases type data with ⟨-, hsame⟩ | ⟨before, g, behind, hgaps, hbefore, hg, hrefused⟩
    · exact absurd (hsame.symm.trans hstart) (hlax start)
    · have hplace : g.start = start := by simpa using hrefused.symm.trans hstart
      exact ⟨before, g, behind, hgaps, hplace, hg, hbefore⟩
  · obtain ⟨hrun, hlies, -⟩ := hgen.strict_instance key data
    exact ⟨hrun, hlies⟩

theorem strict_only_adds_padding_faults_two :
    (∃ g ∈ Entries.loaded.paddingRead (.cls (.type "entry")) (Entries.twoBytes.set 5 9),
      ∃ b ∈ g.bytes, b ≠ 0) ∧
    ∀ g ∈ Entries.loaded.paddingRead (.cls (.type "entry")) Entries.twoBytes, ∀ b ∈ g.bytes, b = 0 := by
  have hrefused : Entries.loaded.decodeAs (.cls (.type "entry")) (some true)
      (Entries.twoBytes.set 5 9) = .error (.decode (.invalidPadding 5)) :=
    Value.eq_of_isRefused (by decide +kernel)
  have hfound : Entries.loaded.decodeAs (.cls (.type "entry")) (some true) Entries.twoBytes =
      .ok (Entries.two .view, []) := Value.eq_of_isFound (by decide +kernel)
  have hbad := strict_only_adds_padding_faults Entries.generates (.cls (.type "entry"))
    (Entries.twoBytes.set 5 9)
  have hgood := strict_only_adds_padding_faults Entries.generates (.cls (.type "entry"))
    Entries.twoBytes
  refine ⟨hbad.2.1.1 ⟨5, hrefused⟩, fun g hg b hb => ?_⟩
  by_contra hne
  obtain ⟨start, hstart⟩ := hgood.2.1.2 ⟨g, hg, b, hb, hne⟩
  rw [hfound] at hstart
  cases hstart

end Xdr
