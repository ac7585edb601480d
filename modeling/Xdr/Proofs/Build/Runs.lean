import Xdr.Proofs.Module.Binding
import Xdr.Build

/-!
# Places and builds

A path leads to one place, whatever is there: the tree of files decides only whether it can be
followed.
-/

namespace Xdr.Files

open List

variable {fs fs' : Files} {names : List String} {p q : Path} {place : Place}
  {data other : List UInt8} {modified : Int}

def origin (p : Path) : Place := if p.root.isEmpty then [] else ["/"]

def target (p : Path) : Place := p.parts.foldl step (origin p)

def way (here : Place) : List String → List Place
  | [] => [here]
  | name :: rest => here :: way (step here name) rest

lemma mem_way_self (here : Place) (names : List String) : here ∈ way here names := by
  cases names <;> exact .head _

lemma isGiven_origin (p : Path) : isGiven (origin p) = true := by
  unfold origin
  split <;> rfl

lemma follow_eq_ok :
    ∀ {here place : Place}, fs.follow here names = .ok place → place = names.foldl step here := by
  induction names with
  | nil =>
    intro here place h
    cases h
    rfl
  | cons name rest ih =>
    intro here place h
    rw [follow] at h
    split at h
    · split at h
      · cases h
      · exact ih h
    · cases h
    · cases h

lemma follow_concat_iff {last : String} :
    ∀ {here place : Place}, fs.follow here (names ++ [last]) = .ok place ↔
      place = step (names.foldl step here) last ∧ (∀ n ∈ names ++ [last], isTooLong n = false) ∧
        ∀ q ∈ way here names, fs.lookup? q = some .folder := by
  induction names with
  | nil =>
    intro here place
    simp only [nil_append, follow, way, foldl_nil, forall_mem_singleton]
    cases hhere : fs.lookup? here with
    | none => simp
    | some e =>
      cases e with
      | file data modified => simp
      | folder =>
        cases hlong : isTooLong last <;> simp [eq_comm]
  | cons name rest ih =>
    intro here place
    simp only [cons_append, follow, way, foldl_cons, forall_mem_cons]
    cases hhere : fs.lookup? here with
    | none => simp
    | some e =>
      cases e with
      | file data modified => simp
      | folder =>
        cases hlong : isTooLong name
        · simp only [Bool.false_eq_true, if_false, ih, true_and]
        · simp

lemma start_eq_ok (h : start p = .ok place) : place = origin p := by
  unfold start at h
  split at h
  · cases h
  · split at h
    · cases h
    · cases h
      rfl

lemma locate_eq_ok (h : fs.locate p = .ok place) :
    start p = .ok (origin p) ∧ fs.follow (origin p) p.parts = .ok place := by
  obtain ⟨here, hstart, h⟩ := bind_ok h
  obtain rfl := start_eq_ok hstart
  exact ⟨hstart, h⟩

lemma locate_target (h : fs.locate p = .ok place) : place = target p :=
  follow_eq_ok (locate_eq_ok h).2

lemma read_eq_ok (h : fs.read p = .ok data) :
    ∃ modified, fs.lookup? (target p) = some (.file data modified) := by
  obtain ⟨place, hlocate, h⟩ := bind_ok h
  obtain rfl := locate_target hlocate
  split at h
  · rename_i found _ hfound
    cases h
    exact ⟨_, hfound⟩
  · cases h
  · cases h

lemma locate_of_read (h : fs.read p = .ok data) : ∃ place, fs.locate p = .ok place := by
  obtain ⟨place, hlocate, -⟩ := bind_ok h
  exact ⟨place, hlocate⟩

lemma status_eq_ok {size : Nat} (h : fs.status p = .ok (modified, size)) :
    fs.lookup? (target p) = some .folder ∨
      ∃ data, fs.lookup? (target p) = some (.file data modified) ∧ size = data.length := by
  obtain ⟨place, hlocate, h⟩ := bind_ok h
  obtain rfl := locate_target hlocate
  split at h
  · rename_i data time hfound
    cases h
    exact .inr ⟨data, hfound, rfl⟩
  · rename_i hfound
    exact .inl hfound
  · cases h

lemma read_of_locate (h : fs.locate p = .ok place)
    (hfile : fs.lookup? (target p) = some (.file data modified)) : fs.read p = .ok data := by
  obtain rfl := locate_target h
  rw [read, h]
  simp only [bind, Except.bind, hfile]

lemma read_of_status {found : Int × Nat} (h : fs.status p = .ok found)
    (hfile : fs.lookup? (target p) = some (.file data modified)) : fs.read p = .ok data := by
  obtain ⟨place, hlocate, -⟩ := bind_ok h
  exact read_of_locate hlocate hfile

lemma has_eq_true (h : fs.has p = .ok true) :
    ∃ e, fs.locate p = .ok (target p) ∧ fs.lookup? (target p) = some e := by
  unfold has at h
  split at h
  · rename_i place hlocate
    obtain rfl := locate_target hlocate
    rw [Except.ok.injEq] at h
    obtain ⟨e, he⟩ := Option.isSome_iff_exists.1 h
    exact ⟨e, hlocate, he⟩
  · cases h
  · cases h

structure Wrote (fs : Files) (p : Path) (data : List UInt8) (fs' : Files) : Prop where
  located : fs.locate p = .ok (target p)
  notFolder : fs.lookup? (target p) ≠ some .folder
  self : ∃ modified, fs'.lookup? (target p) = some (.file data modified)
  others : ∀ place, place ≠ target p → fs'.lookup? place = fs.lookup? place

lemma isGiven_eq_false (h : fs.lookup? place ≠ some .folder) : isGiven place = false := by
  by_contra hgiven
  rw [Bool.not_eq_false] at hgiven
  exact h (by rw [lookup?, if_pos hgiven])

lemma wrote_of_write (h : fs.write p data = .ok fs') : fs.Wrote p data fs' := by
  obtain ⟨place, hlocate, h⟩ := bind_ok h
  obtain rfl := locate_target hlocate
  split at h
  · cases h
  · rename_i hfolder
    cases h
    refine ⟨hlocate, hfolder, ⟨fs.clock, ?_⟩, fun place hplace => ?_⟩
    · exact lookup?_put_self fs _ _ (isGiven_eq_false hfolder)
    · exact lookup?_put_ne fs _ place _ hplace

structure Grew (fs : Files) (on : List Place) (fs' : Files) : Prop where
  kept : ∀ place e, fs.lookup? place = some e → fs'.lookup? place = some e
  folders : ∀ place ∈ on, fs'.lookup? place = some .folder
  others : ∀ place, place ∉ on → fs'.lookup? place = fs.lookup? place

lemma grew_of_makeFrom :
    ∀ {fs fs' : Files} {here : Place}, fs.lookup? here = some .folder →
      fs.makeFrom here names = .ok fs' → fs.Grew (way here names) fs' := by
  induction names with
  | nil =>
    intro fs fs' here hhere h
    cases h
    exact ⟨fun _ _ he => he, by simpa [way] using hhere, fun _ _ => rfl⟩
  | cons name rest ih =>
    intro fs fs' here hhere h
    simp only [makeFrom] at h
    split at h
    · cases h
    · split at h
      · rename_i hthere
        obtain ⟨hkept, hfolders, hothers⟩ := ih hthere h
        refine ⟨hkept, forall_mem_cons.2 ⟨hkept here _ hhere, hfolders⟩, fun place hplace => ?_⟩
        exact hothers place (not_mem_of_not_mem_cons hplace)
      · cases h
      · rename_i hthere
        have hgiven : isGiven (step here name) = false := isGiven_eq_false (by rw [hthere]; nofun)
        have hself := lookup?_put_self fs (step here name) .folder hgiven
        have hne := fun place hplace => lookup?_put_ne fs (step here name) place .folder hplace
        obtain ⟨hkept, hfolders, hothers⟩ := ih hself h
        have hkept' : ∀ place e, fs.lookup? place = some e → fs'.lookup? place = some e := by
          intro place e he
          refine hkept place e ?_
          rwa [hne place]
          rintro rfl
          rw [hthere] at he
          cases he
        refine ⟨hkept', forall_mem_cons.2 ⟨hkept' here _ hhere, hfolders⟩, fun place hplace => ?_⟩
        have hrest := not_mem_of_not_mem_cons hplace
        rw [hothers place hrest, hne place]
        rintro rfl
        exact hrest (mem_way_self _ _)

lemma grew_of_makeFolder (h : fs.makeFolder p = .ok fs') :
    fs.Grew (way (origin p) p.parts) fs' := by
  unfold makeFolder at h
  have hhere : fs.lookup? (origin p) = some .folder := by
    rw [lookup?, if_pos (isGiven_origin p)]
  obtain ⟨here, hstart, h⟩ := bind_ok h
  obtain rfl := start_eq_ok hstart
  exact grew_of_makeFrom hhere h

lemma follow_mono
    (h : ∀ place, fs.lookup? place = some .folder → fs'.lookup? place = some .folder) :
    ∀ {here place : Place}, fs.follow here names = .ok place → fs'.follow here names = .ok place := by
  induction names with
  | nil => exact fun hfollow => hfollow
  | cons name rest ih =>
    intro here place hfollow
    simp only [follow] at hfollow ⊢
    split at hfollow
    · rename_i hhere
      rw [h here hhere]
      split at hfollow
      · cases hfollow
      · rename_i hshort
        simp only [if_neg hshort]
        exact ih hfollow
    · cases hfollow
    · cases hfollow

lemma locate_mono
    (h : ∀ place, fs.lookup? place = some .folder → fs'.lookup? place = some .folder)
    (hlocate : fs.locate p = .ok place) : fs'.locate p = .ok place := by
  obtain ⟨hstart, hfollow⟩ := locate_eq_ok hlocate
  rw [locate, hstart]
  exact follow_mono h hfollow

lemma Wrote.folders (h : fs.Wrote p data fs') (place : Place)
    (hplace : fs.lookup? place = some .folder) : fs'.lookup? place = some .folder := by
  rw [h.others place]
  · exact hplace
  · rintro rfl
    exact h.notFolder hplace

lemma Wrote.read_self (h : fs.Wrote p data fs') : fs'.read p = .ok data := by
  obtain ⟨modified, hself⟩ := h.self
  exact read_of_locate (locate_mono h.folders h.located) hself

lemma Wrote.read_other (h : fs.Wrote p data fs') (hne : target q ≠ target p)
    (hread : fs.read q = .ok other) : fs'.read q = .ok other := by
  obtain ⟨modified, hfile⟩ := read_eq_ok hread
  obtain ⟨place, hlocate⟩ := locate_of_read hread
  exact read_of_locate (locate_mono h.folders hlocate) ((h.others _ hne).trans hfile)

lemma Grew.read {on : List Place} (h : fs.Grew on fs') (hread : fs.read q = .ok other) :
    fs'.read q = .ok other := by
  obtain ⟨modified, hfile⟩ := read_eq_ok hread
  obtain ⟨place, hlocate⟩ := locate_of_read hread
  exact read_of_locate (locate_mono (fun place => h.kept place .folder) hlocate) (h.kept _ _ hfile)

lemma exists_write (hlocate : fs.locate p = .ok (target p))
    (hfree : fs.lookup? (target p) ≠ some .folder) (data : List UInt8) :
    ∃ fs', fs.write p data = .ok fs' := by
  rw [write, hlocate]
  simp only [bind, Except.bind]
  exact ⟨_, rfl⟩

lemma remove_lookup? (h : fs.remove p = .ok fs') :
    fs'.lookup? (target p) = none ∧ ∀ place, place ≠ target p → fs'.lookup? place = fs.lookup? place := by
  obtain ⟨place, hlocate, h⟩ := bind_ok h
  obtain rfl := locate_target hlocate
  split at h
  · rename_i hfile
    cases h
    have hgiven : isGiven (target p) = false := isGiven_eq_false (by rw [hfile]; nofun)
    exact ⟨lookup?_erase_self fs _ hgiven, fun place hplace => lookup?_erase_ne fs _ place hplace⟩
  · cases h
  · cases h

end Xdr.Files

/-! ## What a build can do -/

namespace Xdr.Build

variable {stamp : Path} {r : Request} {data : List UInt8} {modified : Int} {size : Nat}

def Request.current (r : Request) (modified : Int) (size : Nat) (data : List UInt8) : Stamp :=
  ⟨modified, size, r.options, Text.hexOfBytes (Digest.sha256 data)⟩

lemma Options.ofConfig_config {o : Options} (h : o.text?.isSome = true) :
    .ofConfig o.config = o := by
  obtain ⟨runtime, strict, all, comment⟩ := o
  unfold text? at h
  split at h
  case isFalse => cases h
  case isTrue hvalid =>
    have hcodes : (comment.map Char.ofNat).map Char.toNat = comment := by
      rw [List.map_map]
      refine (List.map_congr_left fun n hn => ?_).trans comment.map_id
      exact Wire.toNat_ofNat_of_valid (of_decide_eq_true (List.all_eq_true.1 hvalid n hn))
    rw [ofConfig, config, text?, if_pos hvalid]
    simpa [Json.codes] using hcodes

/-- The bytes are those of the module that a request generates from the bytes of a specification. -/
def Request.Generates (r : Request) (data bytes : List UInt8) : Prop :=
  r.options.text?.isSome = true ∧ ∃ source text, Wire.textOfBytes data = .ok source ∧
    generate r.config r.spec.text source = .ok text ∧ bytes = Wire.utf8 text

inductive Request.Ends (r : Request) (stamp : Path) (fs : Files) : Except Fault Bool × Files → Prop
  | unreadable (f : FileFault) : Ends r stamp fs (.error (.file f), fs)
  | misstamped {f : Fault} (earlier : earlier? fs r.out stamp = .error f) :
      Ends r stamp fs (.error f, fs)
  | notText {data : List UInt8} {e : Wire.Utf8Fault} (read : fs.read r.spec = .ok data)
      (bad : Wire.textOfBytes data = .error e) : Ends r stamp fs (.error .notText, fs)
  | uncompiled {data : List UInt8} {source : String} {f : Failure}
      (read : fs.read r.spec = .ok data) (text : Wire.textOfBytes data = .ok source)
      (failed : generate r.config r.spec.text source = .error f) :
      Ends r stamp fs (.error (.compilation f), fs)
  | current {modified : Int} {size : Nat} {p : Record}
      (status : fs.status r.spec = .ok (modified, size))
      (earlier : earlier? fs r.out stamp = .ok (some p)) (inputs : p.sameInputs r.options = true)
      (same : p.sameStatus modified size = true) : Ends r stamp fs (.ok false, fs)
  | touched {modified : Int} {size : Nat} {p : Record} {data : List UInt8} {fs' : Files}
      (status : fs.status r.spec = .ok (modified, size))
      (earlier : earlier? fs r.out stamp = .ok (some p)) (inputs : p.sameInputs r.options = true)
      (read : fs.read r.spec = .ok data)
      (same : p.sameDigest (Text.hexOfBytes (Digest.sha256 data)) = true)
      (stamped : fs.write stamp (Wire.utf8 (r.current modified size data).text) = .ok fs') :
      Ends r stamp fs (.ok false, fs')
  | generated {modified : Int} {size : Nat} {data bytes : List UInt8} {fs₁ fs₂ fs₃ : Files}
      (status : fs.status r.spec = .ok (modified, size)) (read : fs.read r.spec = .ok data)
      (generates : r.Generates data bytes) (folders : fs.makeFolder r.out.parent = .ok fs₁)
      (written : fs₁.write r.out bytes = .ok fs₂)
      (stamped : fs₂.write stamp (Wire.utf8 (r.current modified size data).text) = .ok fs₃) :
      Ends r stamp fs (.ok true, fs₃)
  | emptied {data : List UInt8} {fs₁ fs₂ : Files} (stray : r.options.text? = none)
      (read : fs.read r.spec = .ok data) (folders : fs.makeFolder r.out.parent = .ok fs₁)
      (written : fs₁.write r.out [] = .ok fs₂) : Ends r stamp fs (.error .unencodable, fs₂)
  | unwritten {data : List UInt8} {f : FileFault} {fs₁ : Files} (read : fs.read r.spec = .ok data)
      (folders : fs.makeFolder r.out.parent = .ok fs₁) : Ends r stamp fs (.error (.file f), fs₁)
  | unstamped {data : List UInt8} {f : FileFault} {stampBytes bytes : List UInt8} {fs₁ fs₂ : Files}
      (read : fs.read r.spec = .ok data) (folders : fs.makeFolder r.out.parent = .ok fs₁) (written : fs₁.write r.out bytes = .ok fs₂)
      (failed : fs₂.write stamp stampBytes = .error f) : Ends r stamp fs (.error (.file f), fs₂)

/-- How work on files ends, and the files that it leaves. -/
def Work.outcome {α : Type} (w : Work α) (fs : Files) : Except Fault α × Files := w.run.run fs

namespace Work

variable {α β : Type} (fs : Files)

lemma outcome_pure (a : α) : outcome (pure a : Work α) fs = (.ok a, fs) := rfl

lemma outcome_bind (w : Work α) (next : α → Work β) :
    outcome (w >>= next) fs =
      match outcome w fs with
      | (.ok a, fs') => outcome (next a) fs'
      | (.error f, fs') => (.error f, fs') := by
  unfold outcome
  simp only [ExceptT.run_bind, StateT.run_bind]
  show (match w.run.run fs with | (a, b) => _) = _
  rcases w.run.run fs with ⟨_ | _, _⟩ <;> rfl

lemma outcome_settle (e : Except Fault α) : outcome (settle e) fs = (e, fs) := by
  cases e <;> rfl

lemma outcome_get : outcome (get : Work Files) fs = (.ok fs, fs) := rfl

lemma outcome_look (f : Files → Except FileFault α) :
    outcome (look f) fs =
      match f fs with
      | .ok a => (.ok a, fs)
      | .error e => (.error (.file e), fs) := by
  rw [look, outcome_bind, outcome_get]
  dsimp only
  cases f fs <;> rfl

lemma outcome_change (f : Files → Except FileFault Files) :
    outcome (change f) fs =
      match f fs with
      | .ok fs' => (.ok (), fs')
      | .error e => (.error (.file e), fs) := by
  rw [change, outcome_bind, outcome_look]
  cases f fs <;> rfl

end Work

lemma exists_of_any_filter {α : Type} {x : Option α} {p q : α → Bool}
    (h : (x.filter p).any q = true) : ∃ a, x = some a ∧ p a = true ∧ q a = true := by
  cases x with
  | none => cases h
  | some a =>
    cases hp : p a with
    | true => exact ⟨a, rfl, hp, by simpa [Option.filter, hp] using h⟩
    | false => simp [Option.filter, hp] at h

lemma touch_ends {fs : Files} {p : Record} (hstatus : fs.status r.spec = .ok (modified, size))
    (hearlier : earlier? fs r.out stamp = .ok (some p)) (hinputs : p.sameInputs r.options = true)
    (hread : fs.read r.spec = .ok data)
    (hsame : p.sameDigest (Text.hexOfBytes (Digest.sha256 data)) = true) :
    r.Ends stamp fs (Work.outcome (do
      change (·.write stamp (Wire.utf8 (r.current modified size data).text))
      return false) fs) := by
  simp only [Work.outcome_bind, Work.outcome_change, Work.outcome_pure]
  cases hstamped : fs.write stamp (Wire.utf8 (r.current modified size data).text) with
  | error f => exact .unreadable f
  | ok fs' => exact .touched hstatus hearlier hinputs hread hsame hstamped

lemma write_ends {fs : Files} {source text : String}
    (hstatus : fs.status r.spec = .ok (modified, size))
    (hread : fs.read r.spec = .ok data) (hsource : Wire.textOfBytes data = .ok source)
    (htext : generate r.config r.spec.text source = .ok text) :
    r.Ends stamp fs (Work.outcome (do
      change (·.makeFolder r.out.parent)
      r.writeModule text
      change (·.write stamp (Wire.utf8 (r.current modified size data).text))
      return true) fs) := by
  simp only [Work.outcome_bind, Work.outcome_change, Work.outcome_pure]
  cases hfolders : fs.makeFolder r.out.parent with
  | error f => exact .unreadable f
  | ok fs₁ =>
    simp only [Request.writeModule]
    cases hstray : r.options.text? with
    | none =>
      simp only [Work.outcome_bind, Work.outcome_change]
      cases hwritten : fs₁.write r.out [] with
      | error f => exact .unwritten hread hfolders
      | ok fs₂ => exact .emptied hstray hread hfolders hwritten
    | some comment =>
      simp only [Work.outcome_change]
      cases hwritten : fs₁.write r.out (Wire.utf8 text) with
      | error f => exact .unwritten hread hfolders
      | ok fs₂ =>
        simp only
        cases hstamped : fs₂.write stamp (Wire.utf8 (r.current modified size data).text) with
        | error f => exact .unstamped hread hfolders hwritten hstamped
        | ok fs₃ =>
          exact .generated hstatus hread ⟨by simp [hstray], source, text, hsource, htext, rfl⟩
            hfolders hwritten hstamped

open Work in
lemma run_ends (hstamp : r.stampPath = .ok stamp) (fs : Files) :
    r.Ends stamp fs (r.run.outcome fs) := by
  rw [Request.run, outcome_bind, outcome_settle, hstamp]
  dsimp only
  rw [outcome_bind, outcome_look]
  cases hstatus : fs.status r.spec with
  | error f => exact .unreadable f
  | ok found =>
    obtain ⟨modified, size⟩ := found
    dsimp only
    rw [outcome_bind, outcome_get]
    dsimp only
    rw [outcome_bind, outcome_settle]
    cases hearlier : earlier? fs r.out stamp with
    | error f => exact .misstamped hearlier
    | ok previous =>
      dsimp only
      split_ifs with hcurrent
      · obtain ⟨p, rfl, hinputs, hsame⟩ := exists_of_any_filter hcurrent
        exact .current hstatus hearlier hinputs hsame
      · rw [outcome_bind, outcome_look]
        cases hread : fs.read r.spec with
        | error f => exact .unreadable f
        | ok data =>
          dsimp only
          split_ifs with htouched
          · obtain ⟨p, rfl, hinputs, hsame⟩ := exists_of_any_filter htouched
            exact touch_ends hstatus hearlier hinputs hread hsame
          · cases hsource : Wire.textOfBytes data with
            | error f => exact .notText hread hsource
            | ok source =>
              dsimp only
              cases htext : generate r.config r.spec.text source with
              | error f => exact .uncompiled hread hsource htext
              | ok text => exact write_ends hstatus hread hsource htext

end Xdr.Build
