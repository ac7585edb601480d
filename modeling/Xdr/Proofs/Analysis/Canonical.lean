import Xdr.Proofs.Analysis.Mentions
import Xdr.Proofs.Keys

/-!
# Sizes and canonical shapes

Sizes are computed one type after the other.
-/

namespace Xdr

open List

variable {f : String → Option Size} {g : String → Size} {name : String} {d : Definition}

lemma mapM_eq_some_iff {α β : Type} {f : α → Option β} {xs : List α} {ys : List β} :
    xs.mapM f = some ys ↔ List.Forall₂ (fun x y => f x = some y) xs ys := by
  induction xs generalizing ys with
  | nil => simp [eq_comm]
  | cons x rest ih =>
    rw [mapM_cons, forall₂_cons_left_iff]
    simp only [bind, Option.bind_eq_some_iff, ih, pure, Option.some.injEq]
    constructor
    · rintro ⟨y, hy, others, hothers, rfl⟩
      exact ⟨y, others, hy, hothers, rfl⟩
    · rintro ⟨y, others, hy, hothers, rfl⟩
      exact ⟨y, hy, others, hothers, rfl⟩

namespace Shape

lemma sizeWith_congr {f : String → Size} (s : Shape)
    (h : ∀ name, s.base = .named name → s.arity ≠ .optional → f name = g name) :
    s.sizeWith f = s.sizeWith g := by
  obtain ⟨base, arity, length⟩ := s
  cases base with
  | builtin b => cases arity <;> rfl
  | named name =>
    cases arity with
    | optional | varying => rfl
    | scalar | fixed => simp only [sizeWith_eq, h name rfl (by simp)]

lemma size?_eq (s : Shape)
    (h : ∀ name, s.base = .named name → s.arity ≠ .optional → f name = some (g name)) :
    s.size? f = some (s.sizeWith g) := by
  obtain ⟨base, arity, length⟩ := s
  cases base with
  | builtin b => cases arity <;> cases b <;> rfl
  | named name =>
    cases arity with
    | optional | varying => rfl
    | scalar =>
      have hname := h name rfl (by simp)
      simp [size?, sizeWith_eq, Base.isBytes, hname]
    | fixed =>
      have hname := h name rfl (by simp)
      cases hsize : g name <;> simp [size?, sizeWith_eq, isOpaque, Base.isBytes, hname, hsize]

end Shape

lemma fieldSizes?_eq {fields : List Decl} (h : ∀ m ∈ fields, m.size? f = some (m.sizeWith g)) :
    (fieldSizes? f fields).map Size.sum = some (.sum (fields.map fun m => m.sizeWith g)) := by
  induction fields with
  | nil => rfl
  | cons m rest ih =>
    have hfirst := h m (.head _)
    obtain ⟨sizes, hsizes, hsum⟩ :=
      Option.map_eq_some_iff.1 (ih fun n hn => h n (mem_cons_of_mem m hn))
    rw [fieldSizes?, hfirst, map_cons]
    cases m.sizeWith g with
    | varying => rfl
    | fixed n =>
      simp only [Option.bind_eq_bind, Option.bind_some, hsizes]
      simp [Size.sum, hsum]

namespace Definitions

variable {defs : Definitions}

/-- The size of a definition, given the sizes of all types. -/
def sizeOf (defs : Definitions) (sizeOf : String → Size) : Definition → Size
  | .enum _ => .fixed 4
  | .typedef t => t.decl.sizeWith sizeOf
  | .struct s => .sum (s.fields.map fun f => f.sizeWith sizeOf)
  | .union u =>
    match u.discriminant.sizeWith sizeOf,
        Size.common? (u.declarations.map fun d => d.sizeWith sizeOf) with
    | .fixed n, some (.fixed m) => if defs.exhaustive u then .fixed (n + m) else .varying
    | _, _ => .varying

lemma sizeOf_congr {sizes others : String → Size} (d : Definition)
    (h : ∀ m ∈ d.members, ∀ name, m.base = .named name → m.arity ≠ .optional →
      sizes name = others name) : defs.sizeOf sizes d = defs.sizeOf others d := by
  have hmember : ∀ m ∈ d.members, m.sizeWith sizes = m.sizeWith others :=
    fun m hm => m.toShape.sizeWith_congr (h m hm)
  cases d with
  | enum e => rfl
  | typedef t => exact hmember t.decl (.head _)
  | struct t => exact congrArg Size.sum (map_congr_left hmember)
  | union u =>
    have hdisc := hmember u.discriminant (.head _)
    have harms : u.declarations.map (fun d => d.sizeWith sizes) =
        u.declarations.map fun d => d.sizeWith others :=
      map_congr_left fun m hm => hmember m (.tail _ hm)
    simp only [sizeOf, hdisc, harms]

lemma size?_eq (d : Definition)
    (h : ∀ m ∈ d.members, ∀ name, m.base = .named name → m.arity ≠ .optional →
      f name = some (g name)) : defs.size? f d = some (defs.sizeOf g d) := by
  have hmember : ∀ m ∈ d.members, m.size? f = some (m.sizeWith g) :=
    fun m hm => m.toShape.size?_eq (h m hm)
  cases d with
  | enum e => rfl
  | typedef t => exact hmember t.decl (.head _)
  | struct t => exact fieldSizes?_eq hmember
  | union u =>
    have hdisc := hmember u.discriminant (.head _)
    have harms : (u.declarations.mapM fun d => d.size? f) =
        some (u.declarations.map fun d => d.sizeWith g) := by
      refine mapM_eq_some_iff.2 (forall₂_map_right_iff.2 (forall₂_same.2 ?_))
      exact fun m hm => hmember m (.tail _ hm)
    simp only [size?, sizeOf, hdisc, harms, Option.bind_eq_bind, Option.bind_some]
    generalize u.discriminant.sizeWith g = disc
    generalize Size.common? (u.declarations.map fun d => d.sizeWith g) = common
    rcases disc with n | _ <;> rcases common with _ | m | _ <;> rfl

end Definitions

namespace Sizes

lemma lookup_eq {sizes : Sizes} (h : name ∈ sizes.map (·.1)) :
    List.lookup name sizes = some (sizes.of name) := by
  obtain ⟨f, hf, rfl⟩ := mem_map.1 h
  obtain ⟨size, hsize⟩ := Option.isSome_iff_exists.1
    (lookup_isSome_iff.2 ⟨f, hf, beq_self_eq_true f.1⟩)
  rw [of, hsize, Option.getD_some]

lemma of_append_left {sizes more : Sizes} (h : name ∈ sizes.map (·.1)) :
    of (sizes ++ more) name = sizes.of name := by
  rw [of, lookup_append, lookup_eq h, Option.some_or, Option.getD_some]

lemma of_concat_self {sizes : Sizes} (h : name ∉ sizes.map (·.1)) (size : Size) :
    of (sizes ++ [(name, size)]) name = size := by
  rw [of, lookup_append, lookup_of_notMem h, Option.none_or, lookup_cons_self,
    Option.getD_some]

end Sizes

structure Computed (defs : Definitions) (names : List String) (sizes : Sizes) : Prop where
  names_eq : sizes.map (·.1) = names
  solved : ∀ name ∈ names, ∀ d, defs.find? name = some d → sizes.of name = defs.sizeOf sizes.of d

namespace Computed

variable {defs : Definitions} {names : List String} {sizes : Sizes}

lemma holds_of_member (hd : defs.find? name = some d) {m : Decl} (hm : m ∈ d.members)
    {other : String} (hbase : m.base = .named other) (harity : m.arity ≠ .optional) :
    defs.graph.Holds name other :=
  (defs.graph_spec.2.2 name other).2
    ⟨d, mem_of_find?_eq_some hd, by simpa using find?_some hd, m, hm, hbase, harity⟩

lemma step (h : Computed defs names sizes) (hordered : defs.graph.Ordered names)
    (hnew : name ∉ names) (hd : defs.find? name = some d)
    (hheld : ∀ other, defs.graph.Holds name other → other ∈ names) :
    ∃ more, defs.addSize? sizes name = some more ∧ Computed defs (names ++ [name]) more := by
  have hknown : ∀ other ∈ names, List.lookup other sizes = some (sizes.of other) :=
    fun other hother => Sizes.lookup_eq (h.names_eq ▸ hother)
  have hsize : defs.size? (List.lookup · sizes) d = some (defs.sizeOf sizes.of d) :=
    Definitions.size?_eq d fun m hm other hbase harity =>
      hknown other (hheld other (holds_of_member hd hm hbase harity))
  refine ⟨sizes ++ [(name, defs.sizeOf sizes.of d)], ?_, ?_, ?_⟩
  · simp [Definitions.addSize?, hd, hsize]
  · rw [map_append, h.names_eq]
    rfl
  · -- no type asks for the new one
    have hkept : ∀ other ∈ names, Sizes.of (sizes ++ [(name, defs.sizeOf sizes.of d)]) other =
        sizes.of other := fun other hother => Sizes.of_append_left (h.names_eq ▸ hother)
    intro known hmem e he
    rcases mem_append.1 hmem with hold | hlast
    · rw [hkept known hold, h.solved known hold e he]
      refine Definitions.sizeOf_congr e fun m hm other hbase harity => (hkept other ?_).symm
      obtain ⟨before, behind, hsplit, -⟩ := eq_append_cons_of_mem hold
      have hbefore := hordered before known behind hsplit other (holds_of_member he hm hbase harity)
      simp [hsplit, hbefore]
    · obtain rfl := mem_singleton.1 hlast
      obtain rfl : d = e := Option.some.inj (hd.symm.trans he)
      rw [Sizes.of_concat_self (h.names_eq ▸ hnew)]
      exact Definitions.sizeOf_congr d fun m hm other hbase harity =>
        (hkept other (hheld other (holds_of_member hd hm hbase harity))).symm

end Computed

namespace TypeOrder

variable {defs : Definitions} {order : List String} (horder : TypeOrder defs order)

include horder

lemma isSome_find? (h : name ∈ order) : (defs.find? name).isSome = true := by
  obtain ⟨d, hd, rfl⟩ := (horder.mem_iff name).1 h
  simpa [Definitions.find?] using ⟨d, hd, rfl⟩

lemma computed_of_prefix (names rest : List String) (hsplit : order = names ++ rest) :
    ∃ sizes, defs.sizes? names = some sizes ∧ Computed defs names sizes := by
  induction names using List.reverseRecOn generalizing rest with
  | nil => exact ⟨[], rfl, rfl, nofun⟩
  | append_singleton names name ih =>
    rw [append_assoc, singleton_append] at hsplit
    obtain ⟨sizes, hsizes, hcomputed⟩ := ih (name :: rest) hsplit
    have hordered : defs.graph.Ordered names := by
      intro before node behind hnames
      refine horder.ordered before node (behind ++ name :: rest) ?_
      rw [hsplit, hnames, append_assoc, cons_append]
    have hnew : name ∉ names := by
      have hnodup := horder.nodup
      rw [hsplit] at hnodup
      exact fun hmem => (nodup_append.1 hnodup).2.2 name hmem name (.head _) rfl
    have hmem : name ∈ order := by simp [hsplit]
    obtain ⟨d, hd⟩ := Option.isSome_iff_exists.1 (horder.isSome_find? hmem)
    obtain ⟨more, hmore, hcomputed'⟩ :=
      hcomputed.step hordered hnew hd (horder.ordered names name rest hsplit)
    refine ⟨more, ?_, hcomputed'⟩
    have hfold : names.foldlM defs.addSize? [] = some sizes := hsizes
    rw [Definitions.sizes?, foldlM_append, hfold]
    simpa using hmore

lemma computed : Computed defs order (defs.sizes order) := by
  obtain ⟨sizes, hsizes, hcomputed⟩ := horder.computed_of_prefix order [] (by simp)
  rwa [Definitions.sizes, hsizes, Option.getD_some]

lemma sizes?_eq : defs.sizes? order = some (defs.sizes order) := by
  obtain ⟨sizes, hsizes, -⟩ := horder.computed_of_prefix order [] (by simp)
  rw [Definitions.sizes, hsizes, Option.getD_some]

lemma sizes_of (hd : defs.find? name = some d) :
    (defs.sizes order).of name = defs.sizeOf (defs.sizes order).of d := by
  refine horder.computed.solved name ((horder.mem_iff name).2 ?_) d hd
  exact ⟨d, mem_of_find?_eq_some hd, by simpa using find?_some hd⟩

lemma sizes_of_undefined (h : defs.find? name = none) :
    (defs.sizes order).of name = .varying := by
  have hnew : name ∉ (defs.sizes order).map (·.1) := by
    rw [horder.computed.names_eq]
    intro hmem
    have hsome := horder.isSome_find? hmem
    rw [h] at hsome
    cases hsome
  rw [Sizes.of, lookup_of_notMem hnew, Option.getD_none]

end TypeOrder

/-! ## Canonical shapes on request -/

variable {name : String} {defs : Definitions} {known : Canonicals} {s : Shape} {names : List String}
  {t : TypedefType} {d : Definition} {n : Nat}

lemma Definitions.follow_plain (defs : Definitions)
    (h : s.arity = .scalar → ∀ name, s.base ≠ .named name) (n : Nat) : defs.follow n s = s := by
  obtain ⟨base, arity, length⟩ := s
  cases n with
  | zero => rfl
  | succ n =>
    cases arity with
    | scalar =>
      cases base with
      | builtin b => rfl
      | named name => exact absurd rfl (h rfl name)
    | _ => rfl

namespace Ranking

variable {defs : Definitions} {rank : String → Nat} (hrank : Ranking defs rank)
include hrank

lemma rank_lt_of_typedef {target : String} (ht : defs.find? name = some (.typedef t))
    (harity : t.decl.arity = .scalar) (hbase : t.decl.base = .named target) :
    rank target < rank name :=
  hrank.decreases name target
    (Computed.holds_of_member ht (.head _) hbase (by simp [harity]))

lemma follow_eq {k : Nat} (hn : s.arity = .scalar → ∀ name, s.base = .named name → rank name < n)
    (hk : s.arity = .scalar → ∀ name, s.base = .named name → rank name < k) :
    defs.follow n s = defs.follow k s := by
  induction n generalizing k s with
  | zero =>
    have hplain : s.arity = .scalar → ∀ name, s.base ≠ .named name :=
      fun harity name hbase => Nat.not_lt_zero _ (hn harity name hbase)
    rw [defs.follow_plain hplain, defs.follow_plain hplain]
  | succ n ih =>
    by_cases hplain : s.arity = .scalar → ∀ name, s.base ≠ .named name
    · rw [defs.follow_plain hplain, defs.follow_plain hplain]
    · push Not at hplain
      obtain ⟨harity, name, hbase⟩ := hplain
      have hlt := hn harity name hbase
      have hlt' := hk harity name hbase
      obtain ⟨k, rfl⟩ := Nat.exists_eq_add_one_of_ne_zero (Nat.ne_zero_of_lt hlt')
      simp only [Definitions.follow, harity, hbase]
      split
      · rename_i t ht
        -- the declaration is of a type of smaller rank
        refine ih (fun hscalar target htarget => ?_) fun hscalar target htarget => ?_ <;>
        · have hless := hrank.rank_lt_of_typedef ht hscalar htarget
          omega
      · rfl

lemma canonical_typedef (ht : defs.find? name = some (.typedef t)) :
    defs.canonical (.scalar (.named name)) = defs.canonical t.decl.toShape := by
  have hstep : defs.canonical (.scalar (.named name)) = defs.follow defs.length t.decl.toShape := by
    simp only [Definitions.canonical, Definitions.follow, Shape.scalar, ht]
  rw [hstep]
  refine hrank.follow_eq (fun harity target hbase => ?_) fun _ target _ =>
    Nat.lt_succ_of_le (hrank.bounded target)
  exact (hrank.rank_lt_of_typedef ht harity hbase).trans_le (hrank.bounded name)

omit hrank in
lemma canonical_of_not_typedef (hd : defs.find? name = some d) (hno : ∀ t, d ≠ .typedef t) :
    defs.canonical (.scalar (.named name)) = .scalar (.named name) := by
  cases d with
  | typedef t => exact absurd rfl (hno t)
  | _ => simp only [Definitions.canonical, Definitions.follow, Shape.scalar, hd]

end Ranking

namespace Definitions

lemma ask_succ (defs : Definitions) (n : Nat) (name : String) (known : Canonicals) :
    (defs.ask (n + 1) name).run known =
      match known.lookup name with
      | some s => some (s, known)
      | none =>
        (match defs.find? name with
          | none => none
          | some (.typedef t) => (t.decl.canonicalBy (defs.ask n)).run known
          | some _ => some (.scalar (.named name), known)).map
            fun found : Shape × Canonicals => (found.1, (name, found.1) :: found.2) := by
  rw [ask]
  cases hknown : known.lookup name with
  | some s => simp [hknown]
  | none =>
    cases hfind : defs.find? name with
    | none => simp [hknown]
    | some d =>
      cases d with
      | typedef t => simp [hknown, Option.map_eq_bind]
      | _ => simp [hknown]

def Remembers (defs : Definitions) (known : Canonicals) : Prop :=
  ∀ name s, known.lookup name = some s → s = defs.canonical (.scalar (.named name))

lemma Remembers.cons (h : defs.Remembers known) (name : String) :
    defs.Remembers ((name, defs.canonical (.scalar (.named name))) :: known) := by
  intro other s hother
  rw [lookup_cons] at hother
  split at hother
  · rename_i heq
    rw [beq_iff_eq.1 heq, ← Option.some.inj hother]
  · exact h other s hother

end Definitions

structure Learns (defs : Definitions) (known : Canonicals) (names : List String)
    (more : Canonicals) : Prop where
  right : defs.Remembers more
  kept : ∀ name ∈ known.map (·.1), name ∈ more.map (·.1)
  added : ∀ name ∈ names, name ∈ more.map (·.1)

lemma Definitions.Remembers.learns (h : defs.Remembers known) :
    Learns defs known [] known := ⟨h, fun _ => id, nofun⟩

lemma Learns.lookup_eq {more : Canonicals} (h : Learns defs known names more)
    (hname : name ∈ names) : more.lookup name = some (defs.canonical (.scalar (.named name))) := by
  obtain ⟨f, hf, rfl⟩ := mem_map.1 (h.added name hname)
  obtain ⟨s, hs⟩ := Option.isSome_iff_exists.1
    (lookup_isSome_iff.2 ⟨f, hf, beq_self_eq_true f.1⟩)
  rw [hs, h.right f.1 s hs]

lemma Definitions.canonicalBy_eq (hknown : defs.Remembers known)
    (hask : s.arity = .scalar → ∀ name, s.base = .named name →
      ∃ more, (defs.ask n name).run known = some (defs.canonical (.scalar (.named name)), more) ∧
        Learns defs known [name] more) :
    ∃ more, (s.canonicalBy (defs.ask n)).run known = some (defs.canonical s, more) ∧
      Learns defs known [] more := by
  obtain ⟨base, arity, length⟩ := s
  by_cases hplain : arity = .scalar → ∀ name, base ≠ .named name
  · refine ⟨known, ?_, hknown.learns⟩
    rw [canonical, defs.follow_plain hplain]
    unfold Shape.canonicalBy
    split
    · rename_i name harity hbase
      exact absurd hbase (hplain harity name)
    · rfl
  · push Not at hplain
    obtain ⟨rfl, name, rfl⟩ := hplain
    obtain ⟨more, hmore, hlearns⟩ := hask rfl name rfl
    exact ⟨more, hmore, hlearns.right, hlearns.kept, nofun⟩

namespace TypeOrder

variable {defs : Definitions} {order : List String} (horder : TypeOrder defs order)
include horder

lemma ask_eq (hname : name ∈ order) (hn : order.idxOf name < n) (hknown : defs.Remembers known) :
    ∃ more, (defs.ask n name).run known = some (defs.canonical (.scalar (.named name)), more) ∧
      Learns defs known [name] more := by
  induction n generalizing name known with
  | zero => exact absurd hn (Nat.not_lt_zero _)
  | succ n ih =>
    rw [Definitions.ask_succ]
    cases hlookup : known.lookup name with
    | some s =>
      have hmem : name ∈ known.map (·.1) := by
        by_contra hno
        rw [lookup_of_notMem hno] at hlookup
        cases hlookup
      rw [hknown name s hlookup]
      exact ⟨known, rfl, hknown, fun _ => id, by simpa using hmem⟩
    | none =>
      obtain ⟨d, hd⟩ := Option.isSome_iff_exists.1 (horder.isSome_find? hname)
      obtain ⟨more, hmore, hlearns⟩ : ∃ more, (match defs.find? name with
          | none => none
          | some (.typedef t) => (t.decl.canonicalBy (defs.ask n)).run known
          | some _ => some (.scalar (.named name), known)) =
            some (defs.canonical (.scalar (.named name)), more) ∧ Learns defs known [] more := by
        rw [hd]
        cases d with
        | typedef t =>
          rw [horder.ranking.canonical_typedef hd]
          refine Definitions.canonicalBy_eq hknown fun harity target hbase => ?_
          -- the type that is mentioned stands before
          have hholds := Computed.holds_of_member hd (.head _) hbase (by simp [harity])
          obtain ⟨before, behind, hsplit, -⟩ := eq_append_cons_of_mem hname
          have htarget : target ∈ order := by
            simp [hsplit, horder.ordered before name behind hsplit target hholds]
          have hless := horder.ranking.decreases name target hholds
          exact ih htarget (by omega) hknown
        | _ =>
          rw [Ranking.canonical_of_not_typedef hd nofun]
          exact ⟨known, rfl, hknown.learns⟩
      refine ⟨(name, defs.canonical (.scalar (.named name))) :: more, ?_, hlearns.right.cons name,
        fun other hother => mem_cons_of_mem _ (hlearns.kept other hother), by simp⟩
      rw [hmore]
      rfl

lemma askAll_eq (hnames : ∀ name ∈ names, name ∈ order) (hknown : defs.Remembers known) :
    ∃ more, (defs.askAll names).run known =
      some (names.map fun name => defs.canonical (.scalar (.named name)), more) ∧
        Learns defs known names more := by
  induction names generalizing known with
  | nil => exact ⟨known, rfl, hknown.learns⟩
  | cons name rest ih =>
    have hbound := Nat.lt_succ_of_le (horder.ranking.bounded name)
    obtain ⟨more, hmore, hlearns⟩ := horder.ask_eq (hnames name (.head _)) hbound hknown
    obtain ⟨all, hall, hlearns'⟩ :=
      ih (fun other hother => hnames other (.tail _ hother)) hlearns.right
    refine ⟨all, ?_, hlearns'.right, fun other hother => hlearns'.kept other (hlearns.kept other hother),
      fun other hother => ?_⟩
    · have hrest : (rest.mapM (defs.ask (defs.length + 1))).run more = some (_, all) := hall
      simp [Definitions.askAll, hmore, hrest]
    · rcases mem_cons.1 hother with rfl | hother
      · exact hlearns'.kept other (hlearns.added other (mem_singleton_self other))
      · exact hlearns'.added other hother

lemma lookup_canonicals (hd : d ∈ defs) :
    defs.canonicals.lookup d.name = some (defs.canonical (.scalar (.named d.name))) := by
  have hall : ∀ name ∈ defs.map (·.name), name ∈ order := by
    intro name hname
    obtain ⟨d, hd, rfl⟩ := mem_map.1 hname
    exact (horder.mem_iff d.name).2 ⟨d, hd, rfl⟩
  have hempty : defs.Remembers [] := nofun
  obtain ⟨more, hmore, hlearns⟩ := horder.askAll_eq hall hempty
  rw [Definitions.canonicals, hmore]
  exact hlearns.lookup_eq (mem_map_of_mem hd)

end TypeOrder

end Xdr
