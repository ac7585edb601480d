import Mathlib

/-!
# Lookups by keys

Where keys are distinct, looking one up gives what has that key, and where some are left out, what is
looked up is either among them or as before.
-/

namespace Xdr

open List

variable {α κ β : Type} [DecidableEq κ]

lemma find?_of_nodup_map {key : α → κ} {l : List α} (hdistinct : (l.map key).Nodup) {x : α}
    (hx : x ∈ l) : l.find? (fun y => decide (key y = key x)) = some x := by
  cases hfind : l.find? (fun y => decide (key y = key x)) with
  | none => simpa using find?_eq_none.1 hfind x hx
  | some y =>
    have hy := mem_of_find?_eq_some hfind
    have hkey : key y = key x := by simpa using find?_some hfind
    rw [inj_on_of_nodup_map hdistinct hy hx hkey]

lemma lookup_of_nodup_map {l : List (κ × β)} (hdistinct : (l.map (·.1)).Nodup) {k : κ} {v : β}
    (hmem : (k, v) ∈ l) : l.lookup k = some v := by
  induction l with
  | nil => cases hmem
  | cons entry rest ih =>
    rw [map_cons, nodup_cons] at hdistinct
    obtain ⟨k', v'⟩ := entry
    rw [lookup_cons]
    rcases mem_cons.1 hmem with heq | hrest
    · cases heq
      simp
    · have hne : k ≠ k' := by
        rintro rfl
        exact hdistinct.1 (mem_map.2 ⟨(k, v), hrest, rfl⟩)
      simp only [beq_eq_false_iff_ne.2 hne]
      exact ih hdistinct.2 hrest

lemma lookup_of_notMem {l : List (κ × β)} {k : κ} (h : k ∉ l.map (·.1)) : l.lookup k = none := by
  rw [lookup_eq_none_iff]
  intro entry hentry
  exact bne_iff_ne.2 fun heq => h (heq ▸ mem_map_of_mem hentry)

lemma lookup_filter (p : κ → Bool) (k : κ) (l : List (κ × β)) :
    (l.filter fun entry => p entry.1).lookup k = if p k then l.lookup k else none := by
  induction l with
  | nil => simp
  | cons entry rest ih =>
    obtain ⟨k', v⟩ := entry
    rw [filter_cons, lookup_cons]
    by_cases heq : k = k'
    · subst heq
      cases hp : p k <;> simp [ih, hp]
    · have hskip : ∀ l : List (κ × β), ((k', v) :: l).lookup k = l.lookup k := fun l => by
        rw [lookup_cons, beq_eq_false_iff_ne.2 heq]
      cases p k'
      · simpa [beq_eq_false_iff_ne.2 heq] using ih
      · rw [if_pos rfl, hskip, ih, beq_eq_false_iff_ne.2 heq]

lemma lookup_flatMap_eq_none {f : α → List (κ × β)} {k : κ} {xs : List α}
    (h : ∀ x ∈ xs, (f x).lookup k = none) : (xs.flatMap f).lookup k = none := by
  induction xs with
  | nil => rfl
  | cons x rest ih =>
    obtain ⟨hfirst, hrest⟩ := forall_mem_cons.1 h
    rw [flatMap_cons, lookup_append, hfirst, ih hrest]
    rfl

lemma lookup_flatMap [DecidableEq α] {f : α → List (κ × β)} {k : κ} {xs : List α} {x : α}
    (hx : x ∈ xs) (hothers : ∀ y ∈ xs, y ≠ x → (f y).lookup k = none) :
    (xs.flatMap f).lookup k = (f x).lookup k := by
  induction xs with
  | nil => cases hx
  | cons y rest ih =>
    obtain ⟨hfirst, hrest⟩ := forall_mem_cons.1 hothers
    rw [flatMap_cons, lookup_append]
    by_cases hmem : x ∈ rest
    · rw [ih hmem hrest]
      by_cases hy : y = x
      · rw [hy, Option.or_self]
      · rw [hfirst hy, Option.none_or]
    · obtain rfl : x = y := (mem_cons.1 hx).resolve_right hmem
      have hnone := lookup_flatMap_eq_none (f := f) fun z hz =>
        hrest z hz fun heq => hmem (heq ▸ hz)
      rw [hnone, Option.or_none]

end Xdr
