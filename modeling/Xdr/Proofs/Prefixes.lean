import Xdr.Proofs.Codec.Paying
import Xdr.Proofs.RoundTrip

/-!
# Decoding and the bytes behind

Decoding depends on the bytes that it takes only.
-/

namespace Xdr

open List

variable {data : List UInt8} {spec : Ast.Specification} {m : Module} {c : Config} {s : Schema}
  {f : Fault} {names : List String} {v : Value} {j : Input}

structure Consuming (decode : List UInt8 → Except Fault (Value × List UInt8)) : Prop where
  ok : ∀ {data v rest}, decode data = .ok (v, rest) → ∀ tail, decode (data ++ tail) = .ok (v, rest ++ tail)
  error : ∀ {data f}, decode data = .error f → f ≠ .tooDeep →
    f.IsShort data.length ∨ ∀ tail, decode (data ++ tail) = .error f
  cut : ∀ {data v rest}, decode data = .ok (v, rest) → ∃ taken, data = taken ++ rest ∧
    ∀ k < taken.length, ∃ f, decode (data.take k) = .error f ∧ f.IsShort k

namespace Consuming

lemma constant (f : Fault) : Consuming fun _ => .error f where
  ok h := by cases h
  error h _ := by
    cases h
    exact .inr fun _ => rfl
  cut h := by cases h

lemma check {decode : List UInt8 → Except Fault (Value × List UInt8)} (hdecode : Consuming decode)
    (test : Value → Except Fault Unit) :
    Consuming fun data => do
      let found ← decode data
      test found.1
      return found where
  ok {data v rest} h tail := by
    obtain ⟨found, hfound, h⟩ := bind_ok h
    obtain ⟨⟨⟩, htest, h⟩ := bind_ok h
    cases h
    simp only [hdecode.ok hfound tail, htest, bind, Except.bind, pure, Except.pure]
  error {data f} h hf := by
    cases hfound : decode data with
    | error g =>
      simp only [hfound, bind, Except.bind, Except.error.injEq] at h
      subst h
      refine (hdecode.error hfound hf).imp_right fun hmore tail => ?_
      simp only [hmore tail, bind, Except.bind]
    | ok found =>
      obtain ⟨v, rest⟩ := found
      refine .inr fun tail => ?_
      simp only [hfound, bind, Except.bind] at h
      simp only [hdecode.ok hfound tail, bind, Except.bind]
      cases htest : test v with
      | error g =>
        rw [htest] at h
        exact h
      | ok a =>
        rw [htest] at h
        cases h
  cut {data v rest} h := by
    obtain ⟨found, hfound, h⟩ := bind_ok h
    obtain ⟨⟨⟩, htest, h⟩ := bind_ok h
    cases h
    obtain ⟨taken, hdata, hcut⟩ := hdecode.cut hfound
    refine ⟨taken, hdata, fun k hk => ?_⟩
    obtain ⟨f, hf, hshort⟩ := hcut k hk
    exact ⟨f, by simp only [hf, bind, Except.bind], hshort⟩

end Consuming

/-- What a reader finds in all of the data. The reader may depend on how many bytes there are. -/
def Read.found (r : Nat → Read Value) (data : List UInt8) : Except Fault (Value × List UInt8) :=
  match r data.length (Input.ofBytes data) with
  | (.ok v, input) => .ok (v, input.rest)
  | (.error f, _) => .error f

section

variable {r : Nat → Read Value}

lemma Read.found_of_ok (h : r data.length (Input.ofBytes data) = (.ok v, j)) :
    Read.found r data = .ok (v, j.rest) := by
  rw [found, h]

lemma Read.found_of_error (h : r data.length (Input.ofBytes data) = (.error f, j)) :
    Read.found r data = .error f := by
  rw [found, h]

lemma Read.run_of_found_ok {rest : List UInt8} (h : Read.found r data = .ok (v, rest)) :
    ∃ j : Input, j.rest = rest ∧ r data.length (Input.ofBytes data) = (.ok v, j) := by
  unfold found at h
  split at h
  · rename_i j hrun
    cases h
    exact ⟨j, rfl, hrun⟩
  · cases h

lemma Read.run_of_found_error (h : Read.found r data = .error f) :
    ∃ j, r data.length (Input.ofBytes data) = (.error f, j) := by
  unfold found at h
  split at h
  · cases h
  · rename_i j hrun
    cases h
    exact ⟨j, hrun⟩

lemma Input.extend_ofBytes (data tail : List UInt8) :
    (Input.ofBytes data).extend (data ++ tail) tail = Input.ofBytes (data ++ tail) := rfl

lemma Fault.IsShort.ne_tooDeep {total : Int} (h : f.IsShort total) : f ≠ .tooDeep := by
  obtain ⟨_, _, _, rfl, -, -⟩ := h
  simp

lemma Consuming.found (hr : ∀ size, Orderly (r size))
    (hsize : ∀ n size (i : Input), 0 ≤ i.offset → i.rest.length ≤ size →
      (∀ j, r n i ≠ (.error .tooDeep, j)) → r size i = r n i) : Consuming (Read.found r) where
  ok {data v rest} h tail := by
    obtain ⟨j, rfl, hrun⟩ := Read.run_of_found_ok h
    have hmore := (hr data.length).ok le_rfl hrun (data ++ tail) tail
    rw [Input.extend_ofBytes] at hmore
    refine Read.found_of_ok (j := j.extend (data ++ tail) tail) ?_
    rw [← hmore]
    refine hsize _ _ _ le_rfl le_rfl fun k hk => ?_
    rw [hmore] at hk
    cases hk
  error {data f} h hf := by
    obtain ⟨j, hrun⟩ := Read.run_of_found_error h
    refine ((hr data.length).error le_rfl hrun).imp (fun hshort => ?_) fun hmore tail => ?_
    · simpa [Input.ofBytes] using hshort
    · obtain ⟨j', hrun'⟩ := hmore (data ++ tail) tail
      rw [Input.extend_ofBytes] at hrun'
      refine Read.found_of_error (j := j') ?_
      rw [← hrun']
      refine hsize _ _ _ le_rfl le_rfl fun k hk => ?_
      rw [hrun'] at hk
      cases hk
      exact hf rfl
  cut {data v rest} h := by
    obtain ⟨j, rfl, hrun⟩ := Read.run_of_found_ok h
    obtain ⟨taken, htaken⟩ := (hr data.length).goes le_rfl hrun
    refine ⟨taken, htaken.rest, fun k hk => ?_⟩
    have hlength := htaken.length
    have hdata : data.take k ++ data.drop k = data := take_append_drop k data
    have hsmall : (data.take k).length = k := by
      rw [length_take]
      simp only [Input.ofBytes] at hlength
      omega
    -- the reader for all of the data goes on as far as it can
    cases hcut : r data.length (Input.ofBytes (data.take k)) with
    | mk result j' =>
      cases result with
      | ok w =>
        have hmore := (hr data.length).ok le_rfl hcut data (data.drop k)
        have hextend := Input.extend_ofBytes (data.take k) (data.drop k)
        rw [hdata] at hextend
        rw [hextend, hrun] at hmore
        obtain ⟨first, hfirst⟩ := (hr data.length).goes le_rfl hcut
        have hrest : j.rest = j'.rest ++ data.drop k := by
          have hj := (Prod.mk.inj hmore).2
          rw [hj]
          rfl
        have hlength' := congrArg List.length hrest
        rw [length_append, length_drop] at hlength'
        simp only [Input.ofBytes] at hlength
        omega
      | error f =>
        rcases (hr data.length).error le_rfl hcut with hshort | hmore
        · have hshort' : f.IsShort k := by simpa [Input.ofBytes, hsmall] using hshort
          refine ⟨f, Read.found_of_error (j := j') ?_, hshort'⟩
          rw [← hcut]
          refine hsize _ _ _ le_rfl le_rfl fun l hl => ?_
          rw [hcut] at hl
          cases hl
          exact hshort'.ne_tooDeep rfl
        · obtain ⟨j'', hrun'⟩ := hmore data (data.drop k)
          have hextend := Input.extend_ofBytes (data.take k) (data.drop k)
          rw [hdata] at hextend
          rw [hextend, hrun] at hrun'
          cases hrun'

end

lemma Generates.exists_linker (h : Generates spec c s m) :
    ∃ l : Linker, ∀ key b, m.body? key = some b →
      ∃ t ∈ s.types, ∃ size, (key, size, b) ∈ l.bodies t := by
  obtain ⟨lib, -, h⟩ := bind_ok h.load
  obtain ⟨g, -, h⟩ := bind_ok h
  cases h
  refine ⟨⟨s, g, lib⟩, fun key b hb => ?_⟩
  obtain ⟨⟨size, _⟩, hlookup, rfl⟩ := Option.map_eq_some_iff.1 hb
  obtain ⟨before, behind, hsplit, -⟩ := lookup_eq_some_iff.1 hlookup
  have hmem : (key, size, _) ∈ s.types.flatMap (Linker.mk s g lib).bodies :=
    hsplit ▸ mem_append_right before (.head _)
  obtain ⟨t, ht, hentry⟩ := mem_flatMap.1 hmem
  exact ⟨t, ht, size, hentry⟩

lemma Generates.ranks_eq (h : Generates spec c s m) : m.ranks = s.types.length + 1 := by
  obtain ⟨lib, -, h⟩ := bind_ok h.load
  obtain ⟨g, -, h⟩ := bind_ok h
  cases h
  rfl

lemma Generates.tame (h : Generates spec c s m) : m.Tame (s.types.map (·.name)) := by
  obtain ⟨l, hbody⟩ := h.exists_linker
  refine ⟨fun key b hb => ?_, fun key b hb => ?_, by rw [h.ranks_eq, length_map]⟩
  · obtain ⟨t, -, size, hentry⟩ := hbody key b hb
    exact fun form hform => (Linker.forward_and_quiet hentry hform).1
  · obtain ⟨t, ht, size, hentry⟩ := hbody key.reader b hb
    have hkey := Linker.belongsTo_of_mem_bodies hentry
    refine ⟨t.name, mem_map_of_mem ht, ?_⟩
    cases key with
    | enum name | root r => exact hkey.elim
    | type name | arm name attr => exact congrArg ClassKey.type hkey

lemma Module.Tame.consuming (hm : m.Tame names) (strict : Bool) (key : ClassKey) :
    Consuming (m.decodeInstance strict key) := by
  have hfound : m.decodeInstance strict key =
      Read.found fun size => m.unpack strict (m.levels size) key := rfl
  rw [hfound]
  exact .found (fun size => hm.orderly strict _ key) fun n size i hi hle hends =>
    hm.unpack_levels strict hi hends hle

lemma Module.consuming_decodeEnum (m : Module) (key : ClassKey) : Consuming (m.decodeEnum key) := by
  cases he : m.enumOf? key with
  | none =>
    have hconstant : m.decodeEnum key = fun _ => .error .noAttribute := by
      funext data
      rw [decodeEnum, he]
    rw [hconstant]
    exact .constant _
  | some e =>
    have hfound : m.decodeEnum key = Read.found fun _ => Read.enum e := by
      funext data
      rw [decodeEnum, he]
      rfl
    rw [hfound]
    exact .found (fun _ => .enum e) fun _ _ _ _ _ _ => rfl

lemma Module.Tame.consuming_decodeAs (hm : m.Tame names) (type : Value) (strict : Option Bool) :
    Consuming (m.decodeAs type strict) := by
  have hfails : Consuming fun _ => .error .noAttribute := .constant _
  cases type with
  | member name variant n => exact m.consuming_decodeEnum (.enum name)
  | cls key =>
    by_cases hkey : key.isEnum = true
    · have henum : m.decodeAs (.cls key) strict = m.decodeEnum key := by
        funext data
        rw [decodeAs, if_pos hkey]
      rw [henum]
      exact m.consuming_decodeEnum key
    · rw [Bool.not_eq_true] at hkey
      have hgiven : ∀ given : Bool, Consuming (m.decodeAs (.cls key) (some given)) := by
        intro given
        rw [funext (m.decodeAs_cls hkey given)]
        exact (hm.consuming given key).check (m.checkKind key)
      cases strict with
      | some given => exact hgiven given
      | none =>
        -- the class says itself whether it is strict
        cases hattr : m.attr (.cls key) "STRICT_PADDING" with
        | error f =>
          have hconstant : m.decodeAs (.cls key) none = fun _ => .error f := by
            funext data
            rw [decodeAs, hkey, hattr]
            rfl
          rw [hconstant]
          exact .constant f
        | ok v =>
          have hsame : m.decodeAs (.cls key) none = m.decodeAs (.cls key) (some v.truth) := by
            funext data
            rw [decodeAs, decodeAs, hattr]
            rfl
          rw [hsame]
          exact hgiven v.truth
  | _ => exact hfails

/-- What decodes by a type takes its bytes, whatever is behind them: bytes behind are left over, and a
failure that is not for want of bytes remains. As long as bytes are missing of those that are taken
there are too few of them, and this is told. -/
theorem decode_depends_on_taken {spec : Ast.Specification} {c : Config} {s : Schema} {m : Module}
    (hgen : Generates spec c s m) (type : Value) (strict : Option Bool) (data : List UInt8) :
    (∀ v rest, m.decodeAs type strict data = .ok (v, rest) → ∀ tail,
      m.decodeAs type strict (data ++ tail) = .ok (v, rest ++ tail)) ∧
    (∀ f, m.decodeAs type strict data = .error (.decode f) →
      (∀ needed available offset, f ≠ .insufficientBytes needed available offset) → ∀ tail,
      m.decodeAs type strict (data ++ tail) = .error (.decode f)) ∧
    ∀ v rest, m.decodeAs type strict data = .ok (v, rest) → ∃ taken, data = taken ++ rest ∧
      ∀ k < taken.length, ∃ needed available offset : Int,
        m.decodeAs type strict (data.take k) =
          .error (.decode (.insufficientBytes needed available offset)) ∧
        offset + available = k ∧ available < needed := by
  have hdecode := hgen.tame.consuming_decodeAs type strict
  refine ⟨fun v rest h => hdecode.ok h, fun f h hother => ?_, fun v rest h => ?_⟩
  · rcases hdecode.error h (by simp) with hshort | hmore
    · obtain ⟨needed, available, offset, heq, -⟩ := hshort
      cases heq
      exact absurd rfl (hother needed available offset)
    · exact hmore
  · obtain ⟨taken, hdata, hcut⟩ := hdecode.cut h
    refine ⟨taken, hdata, fun k hk => ?_⟩
    obtain ⟨f, hf, needed, available, offset, rfl, htotal, hless⟩ := hcut k hk
    exact ⟨needed, available, offset, hf, htotal, hless⟩

theorem decode_depends_on_taken_two :
    (∀ tail, Entries.loaded.decodeAs (.cls (.type "entry")) none (Entries.twoBytes ++ tail) =
      .ok (Entries.two .view, tail)) ∧
    (∀ tail, Entries.loaded.decodeAs (.cls (.type "entry")) (some true)
      (Entries.twoBytes.set 5 9 ++ tail) = .error (.decode (.invalidPadding 5))) ∧
    ∃ taken, Entries.twoBytes = taken ++ [] ∧
      ∀ k < taken.length, ∃ needed available offset : Int,
        Entries.loaded.decodeAs (.cls (.type "entry")) none (Entries.twoBytes.take k) =
          .error (.decode (.insufficientBytes needed available offset)) ∧
        offset + available = k ∧ available < needed := by
  have hfound : Entries.loaded.decodeAs (.cls (.type "entry")) none Entries.twoBytes =
      .ok (Entries.two .view, []) := Value.eq_of_isFound (by decide +kernel)
  have hrefused : Entries.loaded.decodeAs (.cls (.type "entry")) (some true)
      (Entries.twoBytes.set 5 9) = .error (.decode (.invalidPadding 5)) :=
    Value.eq_of_isRefused (by decide +kernel)
  have hgood := decode_depends_on_taken Entries.generates (.cls (.type "entry")) none Entries.twoBytes
  have hbad := decode_depends_on_taken Entries.generates (.cls (.type "entry")) (some true)
    (Entries.twoBytes.set 5 9)
  exact ⟨hgood.1 _ _ hfound, hbad.2.1 _ hrefused (by simp), hgood.2.2 _ _ hfound⟩

end Xdr
