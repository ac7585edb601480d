import Xdr.Proofs.Build.History

/-!
# Damaged stamps

A build makes the module again unless the stamp records what it would.
-/

namespace Xdr.Build

open Files (target)
open Work

/-- There is a module, and the stamp is JSON but neither an object nor null. -/
def Request.Misled (r : Request) (stamp : Path) (fs : Files) : Prop :=
  fs.has r.out = .ok true ∧ ∃ v, recorded fs stamp = some v ∧ ∀ p, v ≠ .object p

/-- The stamp is an object that records the version and the configuration. -/
def Request.Recorded (r : Request) (stamp : Path) (fs : Files) : Prop :=
  ∃ p, recorded fs stamp = some (.object p) ∧ Record.sameInputs p r.options = true

variable {r : Request} {stamp : Path} {fs fs₁ fs₂ fs₃ : Files} {found : Bool} {data module : List UInt8}
  {modified : Int} {size : Nat}

lemma Request.Misled.earlier (h : r.Misled stamp fs) :
    earlier? fs r.out stamp = .error .strangeStamp := by
  obtain ⟨hhas, v, hrecorded, hobject⟩ := h
  unfold earlier?
  rw [hrecorded, hhas]
  cases v with
  | object p => exact absurd rfl (hobject p)
  | _ => rfl

lemma exists_earlier (hhas : fs.has r.out = .ok found) (h : ¬ r.Misled stamp fs) :
    ∃ previous, earlier? fs r.out stamp = .ok previous := by
  unfold earlier?
  split
  · exact ⟨_, rfl⟩
  · rename_i v hrecorded
    rw [hhas]
    cases found with
    | false => exact ⟨_, rfl⟩
    | true =>
      cases v with
      | object p => exact ⟨_, rfl⟩
      | _ => exact absurd ⟨hhas, _, hrecorded, nofun⟩ h

lemma exists_write_recorded {p : Record} (h : earlier? fs r.out stamp = .ok (some p))
    (bytes : List UInt8) : ∃ fs', fs.write stamp bytes = .ok fs' := by
  obtain ⟨-, hrecorded⟩ := Site.earlier_eq_some h
  obtain ⟨_, _, hread, -⟩ := Site.recorded_eq_some hrecorded
  obtain ⟨_, hfile⟩ := Files.read_eq_ok hread
  obtain ⟨place, hlocate⟩ := Files.locate_of_read hread
  obtain rfl := Files.locate_target hlocate
  exact Files.exists_write hlocate (by rw [hfile]; nofun) bytes

/-- Where the module and the stamp can be written and the specification compiles, a build fails only
over a module whose stamp is JSON other than an object and null, and then nothing is changed. Otherwise
it returns, and unless the stamp records the version and the configuration it has made the module and
the stamp. -/
theorem damaged_stamp_costs_rebuild (hstamp : r.stampPath = .ok stamp)
    (hstatus : fs.status r.spec = .ok (modified, size)) (hread : fs.read r.spec = .ok data)
    (hgenerates : r.Generates data module) (hhas : fs.has r.out = .ok found)
    (hfolders : fs.makeFolder r.out.parent = .ok fs₁) (hwritten : fs₁.write r.out module = .ok fs₂)
    (hstamped : fs₂.write stamp (Wire.utf8 (r.current modified size data).text) = .ok fs₃)
    (hapart : target stamp ≠ target r.out) :
    (r.Misled stamp fs → r.run.outcome fs = (.error .strangeStamp, fs)) ∧
      (¬ r.Misled stamp fs → ∃ rebuilt fs', r.run.outcome fs = (.ok rebuilt, fs') ∧
        (¬ r.Recorded stamp fs → rebuilt = true ∧ fs'.read r.out = .ok module ∧
          fs'.read stamp = .ok (Wire.utf8 (r.current modified size data).text))) := by
  obtain ⟨hencodes, source, text, hsource, htext, rfl⟩ := hgenerates
  obtain ⟨comment, hcomment⟩ := Option.isSome_iff_exists.1 hencodes
  rw [Request.run, outcome_bind, outcome_settle, hstamp]
  dsimp only
  rw [outcome_bind, outcome_look, hstatus]
  dsimp only
  rw [outcome_bind, outcome_get]
  dsimp only
  rw [outcome_bind, outcome_settle]
  refine ⟨fun hmisled => by rw [hmisled.earlier], fun hsound => ?_⟩
  obtain ⟨previous, hearlier⟩ := exists_earlier hhas hsound
  rw [hearlier]
  have hrecorded : ∀ {p : Record}, previous = some p → p.sameInputs r.options = true →
      r.Recorded stamp fs := by
    rintro p rfl hinputs
    exact ⟨p, (Site.earlier_eq_some hearlier).2, hinputs⟩
  dsimp only
  split_ifs with hcurrent
  · obtain ⟨p, hp, hinputs, -⟩ := exists_of_any_filter hcurrent
    exact ⟨false, fs, rfl, fun h => absurd (hrecorded hp hinputs) h⟩
  · rw [outcome_bind, outcome_look, hread]
    dsimp only
    split_ifs with htouched
    · obtain ⟨p, rfl, hinputs, -⟩ := exists_of_any_filter htouched
      obtain ⟨fs', hwrote⟩ := exists_write_recorded hearlier
        (Wire.utf8 (r.current modified size data).text)
      rw [Request.current] at hwrote
      refine ⟨false, fs', ?_, fun h => absurd (hrecorded rfl hinputs) h⟩
      simp only [outcome_bind, outcome_change, outcome_pure, hwrote]
    · have hwrote := Files.wrote_of_write hstamped
      rw [Request.current] at hstamped
      refine ⟨true, fs₃, ?_, fun _ => ⟨rfl, ?_, hwrote.read_self⟩⟩
      · simp only [Request.writeModule, hcomment, hsource, htext, outcome_bind, outcome_change,
          outcome_pure, hfolders, hwritten, hstamped]
      · exact hwrote.read_other (Ne.symm hapart) (Files.wrote_of_write hwritten).read_self

def tornRequest : Request := { spec := ⟨"", ["x"]⟩, out := ⟨"", ["x.py"]⟩ }

def tornStamp : Path := ⟨"", ["x.py.fastxdr-stamp"]⟩

/-- The stamp ends where a value should stand. -/
def tornFiles : Files :=
  { entries := [(["x"], .file [] 1), (["x.py"], .file (Wire.utf8 "x = 1") 2),
      (["x.py.fastxdr-stamp"], .file (Wire.utf8 "\x7b\"fastxdr\": ") 3)] }

theorem damaged_stamp_costs_rebuild_torn :
    ∃ text fs', generate tornRequest.config tornRequest.spec.text "" = .ok text ∧
      tornRequest.run.outcome tornFiles = (.ok true, fs') ∧
      fs'.read tornRequest.out = .ok (Wire.utf8 text) := by
  have hnone : recorded tornFiles tornStamp = none := by
    rw [← Option.isNone_iff_eq_none]
    decide +kernel
  have hmisled : ¬ tornRequest.Misled tornStamp tornFiles := by simp [Request.Misled, hnone]
  have hunrecorded : ¬ tornRequest.Recorded tornStamp tornFiles := by simp [Request.Recorded, hnone]
  have hmade : (generate tornRequest.config tornRequest.spec.text "").toOption.isSome = true := by
    decide +kernel
  cases htext : generate tornRequest.config tornRequest.spec.text "" with
  | error f =>
    rw [htext] at hmade
    cases hmade
  | ok text =>
    obtain ⟨rebuilt, fs', hrun, hrebuilt⟩ := (damaged_stamp_costs_rebuild (r := tornRequest)
      (by rfl) (by rfl) (show tornFiles.read tornRequest.spec = .ok [] by decide)
      ⟨by decide, "", text, by decide, htext, rfl⟩ (by rfl) (by rfl) (by rfl) (by rfl) (by decide)).2 hmisled
    obtain ⟨rfl, hread, -⟩ := hrebuilt hunrecorded
    exact ⟨text, fs', rfl, hrun, hread⟩

end Xdr.Build
