import Xdr.Proofs.Build.Runs
import Xdr.Proofs.Build.Stamps

/-!
# Histories of builds

A specification is edited, built and built again, with any configurations, and its module or stamp
may be deleted at any time. A build whose header comment has no encoding leaves an empty module beside
the stamp of the last one.
-/

namespace Xdr.Build

open List Files

open Files (target way origin)

variable {fs fs' : Files} {data module : List UInt8} {modified : Int} {more : List Version}
  {v : Json.Value}

/-- A specification with its module and the stamp beside it, at three different places. -/
structure Site where
  spec : Path
  out : Path
  stamp : Path
  beside : out.continued? ".fastxdr-stamp" = some stamp
  spec_ne_out : target spec ≠ target out
  spec_ne_stamp : target spec ≠ target stamp

/-- A version of a specification: the time of its change, and its bytes. -/
abbrev Version := Int × List UInt8

inductive Event
  | edit (data : List UInt8) (modified : Int)
  | build (options : Options)
  | removeModule
  | removeStamp

namespace Site

variable (site : Site)

def request (o : Options) : Request := { spec := site.spec, out := site.out, options := o }

def apply (fs : Files) : Event → Files
  | .edit data modified => fs.put (target site.spec) (.file data modified)
  | .build o => ((site.request o).run.outcome fs).2
  | .removeModule => (fs.remove site.out).toOption.getD fs
  | .removeStamp => (fs.remove site.stamp).toOption.getD fs

def after (fs : Files) (events : List Event) : Files := events.foldl site.apply fs

/-- Whether the module is torn after an event: a build has emptied it and none has made it since. -/
def tears (fs : Files) (torn : Bool) : Event → Bool
  | .build o =>
    match ((site.request o).run.outcome fs).1 with
    | .error .unencodable => true
    | .ok true => false
    | _ => torn
  | _ => torn

def torn (fs : Files) (already : Bool) : List Event → Bool
  | [] => already
  | event :: rest => torn (site.apply fs event) (site.tears fs already event) rest

/-- The version of the specification that files hold. -/
def version? (fs : Files) : Option Version :=
  match fs.lookup? (target site.spec) with
  | some (.file data modified) => some (modified, data)
  | _ => none

/-- The versions of the specification over a history. -/
def versions (fs : Files) (events : List Event) : List Version :=
  (site.version? fs).toList ++ events.filterMap fun
    | .edit data modified => some (modified, data)
    | _ => none

end Site

/-- Versions of the same time and size are the same, and digests do not collide. -/
structure Distinguished (versions : List Version) : Prop where
  status : ∀ v ∈ versions, ∀ w ∈ versions, v.1 = w.1 → v.2.length = w.2.length → v.2 = w.2
  digest : ∀ v ∈ versions, ∀ w ∈ versions, Digest.sha256 v.2 = Digest.sha256 w.2 → v.2 = w.2

lemma hexDigit_injective {a b : Nat} (h : Text.hexDigit a = Text.hexDigit b) : a % 16 = b % 16 := by
  have hvalue := congrArg Number.hexValue? h
  rwa [Json.hexValue?_hexDigit, Json.hexValue?_hexDigit, Option.some.injEq] at hvalue

lemma hexOfBytes_injective {a b : List UInt8} (h : Text.hexOfBytes a = Text.hexOfBytes b) :
    a = b := by
  have hchars : ∀ (xs ys : List UInt8), xs.flatMap (fun b => Text.hexPadded 2 b.toNat) =
      ys.flatMap (fun b => Text.hexPadded 2 b.toNat) → xs = ys := by
    intro xs
    induction xs with
    | nil =>
      intro ys heq
      cases ys with
      | nil => rfl
      | cons y ys => cases heq
    | cons x xs ih =>
      intro ys heq
      cases ys with
      | nil => cases heq
      | cons y ys =>
        simp only [flatMap_cons, Text.hexPadded, nil_append, cons_append,
          List.cons.injEq] at heq
        obtain ⟨hhigh, hlow, hrest⟩ := heq
        have hhigh := hexDigit_injective hhigh
        have hlow := hexDigit_injective hlow
        have hx := x.toNat_lt
        have hy := y.toNat_lt
        have hxy : x = y := UInt8.toNat_inj.1 (by omega)
        rw [hxy, ih ys hrest]
  exact hchars a b (String.ofList_injective h)

namespace Site

variable {site : Site}

lemma stampPath_request (o : Options) : (site.request o).stampPath = .ok site.stamp := by
  simp only [Request.stampPath, request, site.beside]

lemma parts (site : Site) : ∃ names last, site.out.parts = names ++ [last] ∧
    site.out.parent.parts = names ∧ site.stamp.parts = names ++ [last ++ ".fastxdr-stamp"] ∧
    site.stamp.root = site.out.root := by
  have hbeside := site.beside
  unfold Path.continued? at hbeside
  cases hlast : site.out.parts.getLast? with
  | none =>
    rw [hlast] at hbeside
    cases hbeside
  | some last =>
    rw [hlast, Option.some.injEq] at hbeside
    refine ⟨site.out.parts.dropLast, last, ?_, rfl, by rw [← hbeside], by rw [← hbeside]⟩
    exact (dropLast_append_getLast? last hlast).symm

lemma stamp_ne_out : target site.stamp ≠ target site.out := by
  obtain ⟨names, last, hout, -, hstamp, hroot⟩ := site.parts
  have horigin : origin site.stamp = origin site.out := by rw [origin, origin, hroot]
  have hlength : (last ++ ".fastxdr-stamp").length = last.length + 14 := by
    rw [String.length_append]
    rfl
  have hdots : last ++ ".fastxdr-stamp" ≠ ".." := by
    intro heq
    rw [heq] at hlength
    have : "..".length = 2 := rfl
    omega
  simp only [target, hout, hstamp, horigin, foldl_append, foldl_cons, foldl_nil]
  generalize List.foldl Files.step (origin site.out) names = here
  have hlonger : Files.step here (last ++ ".fastxdr-stamp") = here ++ [last ++ ".fastxdr-stamp"] :=
    if_neg hdots
  rw [hlonger]
  unfold Files.step
  split_ifs with hup hroot hgiven
  · simp
  · simpa using hdots
  · intro heq
    have := congrArg List.length heq
    simp at this
    omega
  · intro heq
    simp only [append_cancel_left_eq, List.cons.injEq, and_true] at heq
    have := congrArg String.length heq
    omega

/-- If there is a module, it is the one given, or empty if it is torn. -/
def Holds (site : Site) (torn : Bool) (module : List UInt8) (fs : Files) : Prop :=
  ∀ e, fs.lookup? (target site.out) = some e →
    ∃ modified, e = .file (if torn then [] else module) modified

structure Told (site : Site) (versions : List Version) (torn : Bool) (fs : Files)
    (bytes : List UInt8) : Prop where
  startable : Files.start site.stamp = .ok (origin site.stamp)
  short : ∀ name ∈ site.stamp.parts, Files.isTooLong name = false
  apart : target site.out ∉ way (origin site.out) site.out.parent.parts
  spec : ∃ version, site.version? fs = some version
  made : ∃ (s : Stamp) (data module : List UInt8), bytes = Wire.utf8 s.text ∧
    (s.modified, data) ∈ versions ∧ s.size = data.length ∧
    s.digest = Text.hexOfBytes (Digest.sha256 data) ∧
    (site.request s.options).Generates data module ∧ site.Holds torn module fs

structure Tracks (site : Site) (versions : List Version) (torn : Bool) (fs : Files) : Prop where
  known : ∀ version, site.version? fs = some version → version ∈ versions
  stamped : ∀ bytes modified, fs.lookup? (target site.stamp) = some (.file bytes modified) →
    site.Told versions torn fs bytes

variable {versions : List Version} {bytes : List UInt8} {p : Record} {o : Options} {size : Nat}
  {torn torn' : Bool}

lemma Holds.of_lookup (h : site.Holds torn module fs)
    (hout : fs'.lookup? (target site.out) = fs.lookup? (target site.out)) :
    site.Holds torn module fs' := fun e he => h e (hout ▸ he)

lemma Told.grow (h : site.Told versions torn fs bytes) (hmore : versions ⊆ more) :
    site.Told more torn fs bytes := by
  obtain ⟨s, data, module, hbytes, hversion, hrest⟩ := h.made
  exact ⟨h.startable, h.short, h.apart, h.spec, s, data, module, hbytes, hmore hversion, hrest⟩

lemma Told.transfer (h : site.Told versions torn fs bytes)
    (hspec : ∃ version, site.version? fs' = some version)
    (hout : ∀ module, site.Holds torn module fs → site.Holds torn' module fs') :
    site.Told versions torn' fs' bytes := by
  obtain ⟨s, data, module, hbytes, hversion, hsize, hdigest, hgenerates, hholds⟩ := h.made
  exact ⟨h.startable, h.short, h.apart, hspec, s, data, module, hbytes, hversion, hsize, hdigest,
    hgenerates, hout module hholds⟩

lemma version?_congr (h : fs'.lookup? (target site.spec) = fs.lookup? (target site.spec)) :
    site.version? fs' = site.version? fs := by
  rw [version?, version?, h]

lemma version?_eq_some_iff {version : Version} :
    site.version? fs = some version ↔
      fs.lookup? (target site.spec) = some (.file version.2 version.1) := by
  unfold version?
  obtain ⟨modified, data⟩ := version
  constructor
  · intro h
    split at h
    · rename_i hfile
      cases h
      exact hfile
    · cases h
  · intro h
    rw [h]

lemma Tracks.transfer (h : site.Tracks versions torn fs)
    (hspec : fs'.lookup? (target site.spec) = fs.lookup? (target site.spec))
    (hstamp : ∀ bytes modified, fs'.lookup? (target site.stamp) = some (.file bytes modified) →
      fs.lookup? (target site.stamp) = some (.file bytes modified) ∧
        ∀ module, site.Holds torn module fs → site.Holds torn' module fs') :
    site.Tracks versions torn' fs' := by
  have hversion : site.version? fs' = site.version? fs := version?_congr hspec
  refine ⟨fun version hv => h.known version (hversion ▸ hv), fun bytes modified hfile => ?_⟩
  obtain ⟨hold, hout⟩ := hstamp bytes modified hfile
  have htold := h.stamped bytes modified hold
  exact htold.transfer (hversion ▸ htold.spec) hout

lemma Tracks.grew (h : site.Tracks versions torn fs)
    (hgrew : fs.Grew (way (origin site.out) site.out.parent.parts) fs') {time : Int}
    (hspec : fs.lookup? (target site.spec) = some (.file data time)) :
    site.Tracks versions torn fs' := by
  refine h.transfer ((hgrew.kept _ _ hspec).trans hspec.symm) fun bytes modified hfile => ?_
  have hold : fs.lookup? (target site.stamp) = some (.file bytes modified) := by
    by_cases hmem : target site.stamp ∈ way (origin site.out) site.out.parent.parts
    · rw [hgrew.folders _ hmem] at hfile
      cases hfile
    · rwa [hgrew.others _ hmem] at hfile
  have hout := hgrew.others _ (h.stamped bytes modified hold).apart
  exact ⟨hold, fun _ hholds => hholds.of_lookup hout⟩

lemma Tracks.edit (h : site.Tracks versions torn fs) (data : List UInt8) (modified : Int) :
    site.Tracks ((modified, data) :: versions) torn (site.apply fs (.edit data modified)) := by
  have hother : ∀ place, place ≠ target site.spec →
      (site.apply fs (.edit data modified)).lookup? place = fs.lookup? place :=
    fun place hplace => lookup?_put_ne fs _ place _ hplace
  -- at a folder that is given, no file can be put
  have hself : (site.apply fs (.edit data modified)).lookup? (target site.spec) =
      some (.file data modified) ∨ (site.apply fs (.edit data modified)).lookup? (target site.spec) =
      fs.lookup? (target site.spec) := by
    cases hgiven : Files.isGiven (target site.spec) with
    | true => exact .inr (by simp only [Files.lookup?, hgiven, if_true])
    | false => exact .inl (lookup?_put_self fs _ _ hgiven)
  refine ⟨fun version hv => ?_, fun bytes time hfile => ?_⟩
  · rcases hself with hself | hself
    · have hnew : site.version? (site.apply fs (.edit data modified)) = some (modified, data) :=
        version?_eq_some_iff.2 hself
      rw [hnew, Option.some.injEq] at hv
      exact hv ▸ mem_cons_self
    · exact mem_cons_of_mem _ (h.known version (version?_congr hself ▸ hv))
  · rw [hother _ (Ne.symm site.spec_ne_stamp)] at hfile
    have htold := (h.stamped bytes time hfile).grow (subset_cons_self (modified, data) versions)
    refine htold.transfer ?_ fun _ hholds => hholds.of_lookup (hother _ (Ne.symm site.spec_ne_out))
    rcases hself with hself | hself
    · exact ⟨(modified, data), version?_eq_some_iff.2 hself⟩
    · exact version?_congr hself ▸ htold.spec

lemma Tracks.removeModule (h : site.Tracks versions torn fs) :
    site.Tracks versions torn (site.apply fs .removeModule) := by
  unfold apply
  cases hremove : fs.remove site.out with
  | error f => exact h
  | ok fs' =>
    obtain ⟨hself, hother⟩ := remove_lookup? hremove
    refine h.transfer (hother _ site.spec_ne_out) fun bytes modified hfile => ⟨?_, fun _ _ e he => ?_⟩
    · exact (hother _ stamp_ne_out) ▸ hfile
    · rw [show (Except.toOption (.ok fs')).getD fs = fs' from rfl, hself] at he
      cases he

lemma Tracks.removeStamp (h : site.Tracks versions torn fs) :
    site.Tracks versions torn (site.apply fs .removeStamp) := by
  unfold apply
  cases hremove : fs.remove site.stamp with
  | error f => exact h
  | ok fs' =>
    obtain ⟨hself, hother⟩ := remove_lookup? hremove
    refine h.transfer (hother _ site.spec_ne_stamp) fun bytes modified hfile => ?_
    have hnone : fs'.lookup? (target site.stamp) = none := hself
    rw [show (Except.toOption (.ok fs')).getD fs = fs' from rfl, hnone] at hfile
    cases hfile

lemma earlier_eq_some {out stamp : Path} (h : earlier? fs out stamp = .ok (some p)) :
    fs.has out = .ok true ∧ recorded fs stamp = some (.object p) := by
  unfold earlier? at h
  split at h
  · cases h
  · rename_i v hrecorded
    split at h
    · cases h
    · cases h
    · rename_i hhas
      cases h
      exact ⟨hhas, hrecorded⟩
    · cases h

lemma recorded_eq_some {stamp : Path} (h : recorded fs stamp = some v) :
    ∃ data text, fs.read stamp = .ok data ∧
      Wire.textOfBytes data = .ok text ∧ Json.read text = some v := by
  unfold recorded at h
  split at h
  · cases h
  · rename_i data hread
    split at h
    · cases h
    · rename_i text htext
      split at h
      · cases h
      · exact ⟨data, text, hread, htext, h⟩

lemma Tracks.recorded (h : site.Tracks versions torn fs)
    (hv : Build.recorded fs site.stamp = some v) :
    ∃ (s : Stamp) (data module : List UInt8), v = .object s.record ∧ (s.modified, data) ∈ versions ∧
      s.size = data.length ∧ s.digest = Text.hexOfBytes (Digest.sha256 data) ∧
      (site.request s.options).Generates data module ∧ site.Holds torn module fs := by
  obtain ⟨bytes, text, hread, htext, hjson⟩ := recorded_eq_some hv
  obtain ⟨modified, hfile⟩ := read_eq_ok hread
  obtain ⟨s, data, module, hbytes, hversion, hsize, hdigest, hgenerates, hholds⟩ :=
    (h.stamped bytes modified hfile).made
  have hsame : text = s.text := by
    have hbytes' := (Wire.textOfBytes_eq_ok_iff bytes s.text).2 hbytes
    rw [htext, Except.ok.injEq] at hbytes'
    exact hbytes'
  rw [hsame] at hjson
  rcases s.read_text (Options.ofConfig_config hgenerates.1).symm with hnone | hsome
  · rw [hnone] at hjson
    cases hjson
  · rw [hsome, Option.some.injEq] at hjson
    exact ⟨s, data, module, hjson.symm, hversion, hsize, hdigest, hgenerates, hholds⟩

lemma Tracks.earlier (h : site.Tracks versions torn fs)
    (hearlier : earlier? fs site.out site.stamp = .ok (some p)) (hinputs : p.sameInputs o = true) :
    ∃ (s : Stamp) (data module : List UInt8), p = s.record ∧ (s.modified, data) ∈ versions ∧
      s.size = data.length ∧ s.digest = Text.hexOfBytes (Digest.sha256 data) ∧
      (site.request o).Generates data module ∧
      fs.read site.out = .ok (if torn then [] else module) := by
  obtain ⟨hhas, hrecorded⟩ := earlier_eq_some hearlier
  obtain ⟨s, data, module, hobject, hversion, hsize, hdigest, hgenerates, hholds⟩ :=
    h.recorded hrecorded
  obtain ⟨e, hlocate, hfound⟩ := has_eq_true hhas
  obtain ⟨modified, rfl⟩ := hholds e hfound
  rw [Json.Value.object.injEq] at hobject
  obtain rfl : s.options = o := Stamp.options_of_sameInputs (hobject ▸ hinputs)
  exact ⟨s, data, module, hobject, hversion, hsize, hdigest, hgenerates,
    read_of_locate hlocate hfound⟩

lemma Tracks.version (h : site.Tracks versions torn fs)
    (hstatus : fs.status site.spec = .ok (modified, size)) (hread : fs.read site.spec = .ok data) :
    (modified, data) ∈ versions ∧ size = data.length := by
  obtain ⟨time, hfile⟩ := read_eq_ok hread
  rcases status_eq_ok hstatus with hfolder | ⟨found, hfound, hsize⟩
  · rw [hfile] at hfolder
    cases hfolder
  · rw [hfile, Option.some.injEq, FileEntry.file.injEq] at hfound
    obtain ⟨rfl, rfl⟩ := hfound
    exact ⟨h.known (time, data) (version?_eq_some_iff.2 hfile), hsize⟩

lemma Tracks.unchanged (h : site.Tracks versions torn fs) (hversions : Distinguished versions)
    (hstatus : fs.status site.spec = .ok (modified, size))
    (hearlier : earlier? fs site.out site.stamp = .ok (some p)) (hinputs : p.sameInputs o = true)
    (hread : fs.read site.spec = .ok data)
    (hsame : p.sameDigest (Text.hexOfBytes (Digest.sha256 data)) = true) :
    ∃ module, (site.request o).Generates data module ∧
      fs.read site.out = .ok (if torn then [] else module) := by
  obtain ⟨s, old, module, rfl, hversion, -, hdigest, hgenerates, hout⟩ := h.earlier hearlier hinputs
  obtain ⟨hknown, -⟩ := h.version hstatus hread
  have hsha := hexOfBytes_injective (hdigest.symm.trans (Stamp.digest_of_sameDigest hsame))
  obtain rfl : old = data := hversions.digest _ hversion _ hknown hsha
  exact ⟨module, hgenerates, hout⟩

/-- How a build may end: a build that returns leaves the module of the specification as it is, but for
one that makes nothing and finds the module torn, and where the specification has none the files stay
as they were. Only a comment that has no encoding empties the module, and the stamp stays. -/
def EndsWell (site : Site) (o : Options) (torn : Bool) (fs : Files) :
    Except Fault Bool × Files → Prop
  | (.ok rebuilt, fs') => ∃ data module, fs.read site.spec = .ok data ∧
      fs'.read site.spec = .ok data ∧ (site.request o).Generates data module ∧
      fs'.read site.out = .ok (if torn && !rebuilt then [] else module)
  | (.error (.compilation f), fs') => fs' = fs ∧ ∃ data source, fs.read site.spec = .ok data ∧
      Wire.textOfBytes data = .ok source ∧ generate o.config site.spec.text source = .error f
  | (.error .notText, fs') => fs' = fs ∧ ∃ data e, fs.read site.spec = .ok data ∧
      Wire.textOfBytes data = .error e
  | (.error .unencodable, fs') => o.text? = none ∧ fs'.read site.out = .ok [] ∧
      ∀ bytes, fs.read site.stamp = .ok bytes → fs'.read site.stamp = .ok bytes
  | (.error (.file _), _) => True
  | (.error .strangeStamp, _) => False
  | (.error .unnamedOutput, _) => False

lemma Tracks.earlier_error (h : site.Tracks versions torn fs) {f : Fault}
    (hearlier : earlier? fs site.out site.stamp = .error f) : ∃ e, f = .file e := by
  unfold earlier? at hearlier
  split at hearlier
  · cases hearlier
  · rename_i v hrecorded
    obtain ⟨s, data, module, rfl, -⟩ := h.recorded hrecorded
    split at hearlier
    · cases hearlier
      exact ⟨_, rfl⟩
    · cases hearlier
    · cases hearlier
    · rename_i hobject
      exact absurd rfl (hobject _)

lemma Tracks.endsWell (h : site.Tracks versions torn fs) (hversions : Distinguished versions)
    (o : Options) : site.EndsWell o torn fs ((site.request o).run.outcome fs) := by
  have hpath : (site.request o).stampPath = .ok site.stamp := stampPath_request o
  have hends := run_ends hpath fs
  generalize (site.request o).run.outcome fs = result at hends
  cases hends with
  | unreadable => exact trivial
  | misstamped hearlier =>
    obtain ⟨e, rfl⟩ := h.earlier_error hearlier
    exact trivial
  | notText hread hbad => exact ⟨rfl, _, _, hread, hbad⟩
  | uncompiled hread htext hfailed => exact ⟨rfl, _, _, hread, htext, hfailed⟩
  | current hstatus hearlier hinputs hsame =>
    obtain ⟨s, data, module, rfl, hversion, hsize, -, hgenerates, hout⟩ :=
      h.earlier hearlier hinputs
    obtain ⟨hmodified, hlength⟩ := Stamp.status_of_sameStatus hsame
    -- a stamp is there, so the specification is a file
    obtain ⟨now, hnow⟩ : ∃ now, fs.read site.spec = .ok now := by
      obtain ⟨-, hrecorded⟩ := earlier_eq_some hearlier
      obtain ⟨bytes, _, hread, -⟩ := recorded_eq_some hrecorded
      obtain ⟨time, hfile⟩ := read_eq_ok hread
      obtain ⟨version, hv⟩ := (h.stamped bytes time hfile).spec
      exact ⟨version.2, read_of_status hstatus (version?_eq_some_iff.1 hv)⟩
    obtain ⟨hknown, hnowsize⟩ := h.version hstatus hnow
    obtain rfl : data = now :=
      hversions.status _ hversion _ hknown hmodified
        (hsize.symm.trans (hlength.trans hnowsize))
    exact ⟨data, module, hnow, hnow, hgenerates, by simpa using hout⟩
  | touched hstatus hearlier hinputs hread hsame hstamped =>
    obtain ⟨module, hgenerates, hout⟩ :=
      h.unchanged hversions hstatus hearlier hinputs hread hsame
    have hwrote := wrote_of_write hstamped
    refine ⟨_, module, hread, hwrote.read_other site.spec_ne_stamp hread, hgenerates, ?_⟩
    simpa using hwrote.read_other (Ne.symm stamp_ne_out) hout
  | generated hstatus hread hgenerates hfolders hwritten hstamped =>
    have hgrew := grew_of_makeFolder hfolders
    have hwrote := wrote_of_write hwritten
    have hwrote' := wrote_of_write hstamped
    have hspec := hwrote'.read_other site.spec_ne_stamp
      (hwrote.read_other site.spec_ne_out (hgrew.read hread))
    refine ⟨_, _, hread, hspec, hgenerates, ?_⟩
    simpa using hwrote'.read_other (Ne.symm stamp_ne_out) hwrote.read_self
  | emptied hstray hread hfolders hwritten =>
    have hwrote := wrote_of_write hwritten
    exact ⟨hstray, hwrote.read_self, fun bytes hbytes =>
      hwrote.read_other stamp_ne_out ((grew_of_makeFolder hfolders).read hbytes)⟩
  | unwritten | unstamped => exact trivial

lemma told_current (h : site.Tracks versions torn fs) {fs₂ : Files}
    (hstatus : fs.status site.spec = .ok (modified, size)) (hread : fs.read site.spec = .ok data)
    (hgenerates : (site.request o).Generates data module)
    (hapart : target site.out ∉ way (origin site.out) site.out.parent.parts)
    (hspec : fs₂.lookup? (target site.spec) = fs.lookup? (target site.spec))
    (hholds : site.Holds torn' module fs₂)
    (hstamped : fs₂.Wrote site.stamp (Wire.utf8 ((site.request o).current modified size data).text)
      fs') : site.Tracks versions torn' fs' := by
  obtain ⟨hknown, hsize⟩ := h.version hstatus hread
  obtain ⟨hstart, hfollow⟩ := locate_eq_ok hstamped.located
  obtain ⟨names, last, -, -, hparts, -⟩ := site.parts
  have hshort : ∀ name ∈ site.stamp.parts, Files.isTooLong name = false := by
    rw [hparts] at hfollow ⊢
    exact (follow_concat_iff.1 hfollow).2.1
  have hspec' : fs'.lookup? (target site.spec) = fs.lookup? (target site.spec) :=
    (hstamped.others _ site.spec_ne_stamp).trans hspec
  have hversion : site.version? fs' = site.version? fs := version?_congr hspec'
  obtain ⟨time, hself⟩ := hstamped.self
  obtain ⟨_, hfile⟩ := read_eq_ok hread
  refine ⟨fun version hv => h.known version (hversion ▸ hv), fun bytes when hbytes => ?_⟩
  rw [hself, Option.some.injEq, FileEntry.file.injEq] at hbytes
  exact ⟨hstart, hshort, hapart, ⟨(_, data), version?_eq_some_iff.2 (hspec'.trans hfile)⟩,
    (site.request o).current modified size data, data, module, hbytes.1.symm, hknown, hsize, rfl,
    hgenerates, hholds.of_lookup (hstamped.others _ (Ne.symm stamp_ne_out))⟩

lemma Told.exists_write (h : site.Told versions torn fs bytes)
    (hway : ∀ place ∈ way (origin site.out) site.out.parent.parts, fs.lookup? place = some .folder)
    (hwrote : fs.Wrote site.out module fs')
    (hfile : fs'.lookup? (target site.stamp) = some (.file bytes modified)) (data : List UInt8) :
    ∃ fs'', fs'.write site.stamp data = .ok fs'' := by
  obtain ⟨names, last, -, hparent, hparts, hroot⟩ := site.parts
  have horigin : origin site.stamp = origin site.out := by rw [origin, origin, hroot]
  have hfolders : ∀ place ∈ way (origin site.stamp) names, fs'.lookup? place = some .folder := by
    intro place hplace
    rw [horigin, ← hparent] at hplace
    exact hwrote.folders place (hway place hplace)
  have hfollow : fs'.follow (origin site.stamp) site.stamp.parts = .ok (target site.stamp) := by
    have hshort := h.short
    rw [target, hparts, foldl_append] at *
    exact follow_concat_iff.2 ⟨rfl, hshort, hfolders⟩
  have hlocate : fs'.locate site.stamp = .ok (target site.stamp) := by
    rw [Files.locate, h.startable]
    exact hfollow
  exact Files.exists_write hlocate (by simp [hfile]) data

lemma Tracks.build (h : site.Tracks versions torn fs) (hversions : Distinguished versions)
    (o : Options) :
    site.Tracks versions (site.tears fs torn (.build o)) (site.apply fs (.build o)) := by
  have hpath : (site.request o).stampPath = .ok site.stamp := stampPath_request o
  have hends := run_ends hpath fs
  simp only [tears, apply]
  generalize (site.request o).run.outcome fs = result at hends ⊢
  cases hends with
  | unreadable | notText | uncompiled | current => exact h
  | misstamped hearlier =>
    obtain ⟨e, rfl⟩ := h.earlier_error hearlier
    exact h
  | touched hstatus hearlier hinputs hread hsame hstamped =>
    obtain ⟨module, hgenerates, hout⟩ :=
      h.unchanged hversions hstatus hearlier hinputs hread hsame
    obtain ⟨-, hrecorded⟩ := earlier_eq_some hearlier
    obtain ⟨bytes, _, hstamp, -⟩ := recorded_eq_some hrecorded
    obtain ⟨_, hfile⟩ := read_eq_ok hstamp
    obtain ⟨time, hmodule⟩ := read_eq_ok hout
    refine told_current h hstatus hread hgenerates (h.stamped bytes _ hfile).apart rfl ?_
      (wrote_of_write hstamped)
    exact fun e he => ⟨time, Option.some.inj (he.symm.trans hmodule)⟩
  | generated hstatus hread hgenerates hfolders hwritten hstamped =>
    have hgrew := grew_of_makeFolder hfolders
    have hwrote := wrote_of_write hwritten
    obtain ⟨_, hspec⟩ := read_eq_ok hread
    obtain ⟨time, hself⟩ := hwrote.self
    refine told_current h hstatus hread hgenerates ?_ ?_ ?_ (wrote_of_write hstamped)
    · exact fun hmem => hwrote.notFolder (hgrew.folders _ hmem)
    · exact (hwrote.others _ site.spec_ne_out).trans ((hgrew.kept _ _ hspec).trans hspec.symm)
    · exact fun e he => ⟨time, Option.some.inj (he.symm.trans hself)⟩
  | emptied hstray hread hfolders hwritten =>
    have hgrew := grew_of_makeFolder hfolders
    have hwrote := wrote_of_write hwritten
    obtain ⟨_, hspec⟩ := read_eq_ok hread
    obtain ⟨time, hself⟩ := hwrote.self
    refine (h.grew hgrew hspec).transfer (hwrote.others _ site.spec_ne_out) fun bytes modified hfile => ?_
    refine ⟨hwrote.others _ stamp_ne_out ▸ hfile, fun module _ e he => ⟨time, ?_⟩⟩
    exact Option.some.inj (he.symm.trans hself)
  | unwritten hread hfolders =>
    have hgrew := grew_of_makeFolder hfolders
    obtain ⟨_, hspec⟩ := read_eq_ok hread
    exact h.grew hgrew hspec
  | unstamped hread hfolders hwritten hfailed =>
    have hgrew := grew_of_makeFolder hfolders
    have hwrote := wrote_of_write hwritten
    obtain ⟨_, hspec⟩ := read_eq_ok hread
    have htracks := h.grew hgrew hspec
    refine htracks.transfer (hwrote.others _ site.spec_ne_out) fun bytes modified hfile => ?_
    -- the stamp could have been written, had there been one
    have hold := hwrote.others _ stamp_ne_out ▸ hfile
    obtain ⟨fs', hfs'⟩ := (htracks.stamped bytes modified hold).exists_write hgrew.folders hwrote hfile _
    rw [hfailed] at hfs'
    cases hfs'

lemma Tracks.grow (h : site.Tracks versions torn fs) (hmore : versions ⊆ more) :
    site.Tracks more torn fs :=
  ⟨fun version hv => hmore (h.known version hv),
    fun bytes modified hfile => (h.stamped bytes modified hfile).grow hmore⟩

lemma Tracks.after (hversions : Distinguished versions) {events : List Event} :
    ∀ {fs : Files} {torn : Bool},
      (∀ data modified, .edit data modified ∈ events → (modified, data) ∈ versions) →
      site.Tracks versions torn fs →
      site.Tracks versions (site.torn fs torn events) (site.after fs events) := by
  induction events with
  | nil => exact fun _ h => h
  | cons event rest ih =>
    intro fs torn hedits h
    refine ih (fun data modified hmem => hedits data modified (.tail _ hmem)) ?_
    cases event with
    | edit data modified =>
      have hmem := hedits data modified (.head _)
      exact (h.edit data modified).grow (cons_subset.2 ⟨hmem, List.Subset.refl _⟩)
    | build o => exact h.build hversions o
    | removeModule => exact h.removeModule
    | removeStamp => exact h.removeStamp

lemma tracks_start (versions : List Version)
    (hversion : ∀ version, site.version? fs = some version → version ∈ versions)
    (hfresh : ∀ bytes modified, fs.lookup? (target site.stamp) ≠ some (.file bytes modified)) :
    site.Tracks versions false fs :=
  ⟨hversion, fun bytes modified hfile => absurd hfile (hfresh bytes modified)⟩

lemma text?_eq_none_of_run (h : ((site.request o).run.outcome fs).1 = .error .unencodable) :
    o.text? = none := by
  have hpath : (site.request o).stampPath = .ok site.stamp := stampPath_request o
  have hends := run_ends hpath fs
  generalize (site.request o).run.outcome fs = result at hends h
  cases hends with
  | emptied hstray => exact hstray
  | misstamped hearlier =>
    unfold earlier? at hearlier
    cases h
    repeat' split at hearlier
    all_goals cases hearlier
  | _ => cases h

/-- Only a comment that has no encoding tears the module. -/
lemma torn_eq_false {events : List Event}
    (h : ∀ o, .build o ∈ events → o.text?.isSome = true) (fs : Files) :
    site.torn fs false events = false := by
  induction events generalizing fs with
  | nil => rfl
  | cons event rest ih =>
    have hwhole : site.tears fs false event = false := by
      cases event with
      | build o =>
        simp only [tears]
        split
        · rename_i hrun
          have hsome := h o (.head _)
          rw [text?_eq_none_of_run hrun] at hsome
          cases hsome
        · rfl
        · rfl
      | _ => rfl
    rw [torn, hwhole]
    exact ih (fun o ho => h o (.tail _ ho)) _

/-- Whatever was edited, built and deleted before, from a site without a stamp on: a build that
returns leaves the module that its configuration makes of the specification as it is, unless it makes
nothing and the module is torn, and then it leaves that empty. A build of a specification that cannot
be compiled, or is no text, changes nothing at all. No module is torn if every comment has an
encoding. -/
theorem build_leaves_current_module (site : Site) (fs : Files) (events : List Event) (o : Options)
    (hfresh : ∀ bytes modified, fs.lookup? (target site.stamp) ≠ some (.file bytes modified))
    (hversions : Distinguished (site.versions fs events)) :
    site.EndsWell o (site.torn fs false events) (site.after fs events)
        ((site.request o).run.outcome (site.after fs events)) ∧
      ((∀ other, .build other ∈ events → other.text?.isSome = true) →
        site.torn fs false events = false) := by
  have hstart : site.Tracks (site.versions fs events) false fs := by
    refine tracks_start _ (fun version hv => ?_) hfresh
    exact mem_append_left _ (Option.mem_toList.2 hv)
  have hedits : ∀ data modified, .edit data modified ∈ events →
      (modified, data) ∈ site.versions fs events := by
    intro data modified hmem
    exact mem_append_right _ (mem_filterMap.2 ⟨_, hmem, rfl⟩)
  exact ⟨(Tracks.after hversions hedits hstart).endsWell hversions o, fun h => torn_eq_false h fs⟩

def portSite : Site where
  spec := ⟨"", ["port.x"]⟩
  out := ⟨"", ["gen", "port.py"]⟩
  stamp := ⟨"", ["gen", "port.py.fastxdr-stamp"]⟩
  beside := by decide
  spec_ne_out := by decide
  spec_ne_stamp := by decide

def portHistory : List Event :=
  let whole := Wire.utf8 "const PORT = 111;"
  [.edit whole 1, .build (.ofConfig {}), .edit (Wire.utf8 "const PORT = ;") 2,
   .build (.ofConfig {}), .edit whole 3, .build (.ofConfig { strictPadding := true }), .removeModule,
   .build { Options.ofConfig {} with comment := [0xd800] }]

theorem build_leaves_current_module_port :
    Distinguished (portSite.versions {} portHistory) ∧
      portSite.EndsWell (.ofConfig {}) (portSite.torn {} false portHistory)
        (portSite.after {} portHistory)
        ((portSite.request (.ofConfig {})).run.outcome (portSite.after {} portHistory)) := by
  have hversions : Distinguished (portSite.versions {} portHistory) := by
    have hlist : portSite.versions {} portHistory =
        [(1, Wire.utf8 "const PORT = 111;"), (2, Wire.utf8 "const PORT = ;"),
          (3, Wire.utf8 "const PORT = 111;")] := rfl
    have hdigest : Digest.sha256 (Wire.utf8 "const PORT = 111;") ≠
        Digest.sha256 (Wire.utf8 "const PORT = ;") := by decide +kernel
    constructor
    · rw [hlist]
      decide
    · rw [hlist]
      simp [hdigest, Ne.symm hdigest]
  exact ⟨hversions,
    (build_leaves_current_module portSite {} portHistory (.ofConfig {}) (by nofun) hversions).1⟩

end Site

end Xdr.Build
