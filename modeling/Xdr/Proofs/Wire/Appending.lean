import Xdr.Proofs.Wire.Writers

/-!
# What calls leave in the output

A call of a writer only appends to the output, also when it fails: nothing if the check of the value
fails, and the parts that stand before the failing item if the value has items. Two calls fail behind
their check. Bytes that lie apart leave their length, and bytes whose number is given as a fraction
that equals it are left without their padding; all other calls append whole words.
-/

namespace Xdr

open Wire List

variable {x y : Write} {result : Except Fault Unit} {f : Fault} {bs cs : List UInt8} {width : Nat}
  {bound : Option Int}

/-- From any output, the writer ends the same way and appends the same bytes. -/
def Appends (w : Write) (result : Except Fault Unit) (bs : List UInt8) : Prop :=
  ∀ out : Output, w out = (result, out.appendList bs)

/-- The writer appends bytes, whole words of them if `whole` says so, and `Left` holds of those that a
failure leaves behind. -/
def AppendsWords (whole : Bool) (w : Write) (Left : Fault → List UInt8 → Prop) : Prop :=
  ∃ result bs, Appends w result bs ∧ (whole = true → 4 ∣ bs.length) ∧
    ∀ f, result = .error f → Left f bs

def AllOrNothing (w : Write) : Prop := AppendsWords true w fun _ bs => bs = []

/-- The items are written up to one that fails. -/
def StopsIn (item : Value → Write) (Left : Value → Fault → List UInt8 → Prop) (items : List Value)
    (f : Fault) (bs : List UInt8) : Prop :=
  ∃ before v after written left, items = before ++ v :: after ∧
    Forall₂ (fun u cs => Appends (item u) (.ok ()) cs) before written ∧
    Appends (item v) (.error f) left ∧ Left v f left ∧ bs = written.flatten ++ left

/-- A failed array has left its head and the items before the failing one, or nothing if it has not
passed its check. -/
def LeavesItems (item : Value → Write) (Left : Value → Fault → List UInt8 → Prop)
    (Passes : List Value → Prop) (head : List Value → List UInt8) (elements : Option (List Value))
    (f : Fault) (bs : List UInt8) : Prop :=
  match elements with
  | none => bs = []
  | some items =>
    (Passes items → ∃ rest, StopsIn item Left items f rest ∧ bs = head items ++ rest) ∧
      (¬Passes items → bs = [])

/-- What a failed call for a simple form has appended: the length of bytes that lie apart, or else
nothing. -/
def Form.Left (form : Form) (v : Value) (bs : List UInt8) : Prop :=
  match form, v with
  | varOpaque bound, .bytes data .sparse =>
    (IsLength bound data.length → bs = bigEndian 4 data.length) ∧
      (¬IsLength bound data.length → bs = [])
  | _, _ => bs = []

/-- What a failed call for `n` bytes has appended: the bytes themselves if `n` equals their number but
is no whole number, or else nothing. -/
def Value.Left (n v : Value) (bs : List UInt8) : Prop :=
  match v with
  | .bytes data storage =>
    if n.wholeNumber? = none ∧ n.isNumber data.length ∧ storage ≠ .sparse then bs = data else bs = []
  | _ => bs = []

namespace Method

/-- What a failed call has appended. -/
def Left (c : Encoder) : Method → Value → Fault → List UInt8 → Prop
  | simple form _, v, _, bs => form.Left v bs
  | counted n, v, _, bs => n.Left v bs
  | optional item, v, f, bs => v.isNull = false ∧ ∃ left,
      Appends (item.write c v) (.error f) left ∧ item.Left c v f left ∧ bs = bigEndian 4 1 ++ left
  | fixedArray n item, v, f, bs =>
    LeavesItems (item.write c) (item.Left c) (·.length = n) (fun _ => []) (c.elements v) f bs
  | array bound item, v, f, bs =>
    LeavesItems (item.write c) (item.Left c) (IsLength bound ·.length) (bigEndian 4 ·.length)
      (c.elements v) f bs

/-- All numbers of bytes are whole numbers. -/
def isWhole : Method → Bool
  | simple _ _ => true
  | counted n => n.wholeNumber?.isSome
  | optional item | fixedArray _ item | array _ item => item.isWhole

end Method

structure Call where
  method : Method
  value : Value

variable {Left : Fault → List UInt8 → Prop} {whole : Bool}

namespace Appends

lemma pure : Appends (Pure.pure ()) (.ok ()) [] := fun _ => rfl

lemma throw (f : Fault) : Appends (throw f) (.error f) [] := fun _ => rfl

lemma put (bs : List UInt8) : Appends (Write.put bs) (.ok ()) bs := fun _ => rfl

lemma bind (hx : Appends x (.ok ()) bs) (hy : Appends y result cs) :
    Appends (do x; y) result (bs ++ cs) := by
  intro out
  rw [run_bind_of_ok (hx out), hy, appendList_appendList]

lemma bind_error (hx : Appends x (.error f) bs) : Appends (do x; y) (.error f) bs :=
  fun out => run_bind_of_error (hx out)

end Appends

namespace AppendsWords

lemma throw (h : Left f []) : AppendsWords whole (throw f) Left :=
  ⟨.error f, [], .throw f, by simp, by rintro _ ⟨⟩; exact h⟩

lemma put (h : 4 ∣ bs.length) : AppendsWords whole (Write.put bs) Left :=
  ⟨.ok (), bs, .put bs, fun _ => h, nofun⟩

lemma mono {More : Fault → List UInt8 → Prop} (h : AppendsWords true x Left)
    (hmore : ∀ f bs, Left f bs → More f bs) : AppendsWords whole x More := by
  obtain ⟨result, bs, hrun, hwords, hleft⟩ := h
  exact ⟨result, bs, hrun, fun _ => hwords rfl, fun f hf => hmore f bs (hleft f hf)⟩

/-- A writer that runs after a writer whose bytes are known. -/
lemma after (hx : Appends x (.ok ()) bs) (hbs : whole = true → 4 ∣ bs.length)
    (hy : AppendsWords whole y fun f cs => Left f (bs ++ cs)) :
    AppendsWords whole (do x; y) Left := by
  obtain ⟨result, cs, hrun, hwords, hleft⟩ := hy
  refine ⟨result, bs ++ cs, hx.bind hrun, fun h => ?_, hleft⟩
  rw [length_append]
  exact Nat.dvd_add (hbs h) (hwords h)

lemma each {item : Value → Write} {Left : Value → Fault → List UInt8 → Prop}
    (h : ∀ v, AppendsWords whole (item v) (Left v)) (items : List Value) :
    AppendsWords whole (Write.each item items) (StopsIn item Left items) := by
  induction items with
  | nil => exact ⟨.ok (), [], .pure, by simp, nofun⟩
  | cons v rest ih =>
    obtain ⟨result, bs, hrun, hwords, hleft⟩ := h v
    cases result with
    | error f =>
      refine ⟨.error f, bs, hrun.bind_error, hwords, ?_⟩
      rintro _ ⟨⟩
      exact ⟨[], v, rest, [], bs, rfl, .nil, hrun, hleft f rfl, by simp⟩
    | ok =>
      refine after hrun hwords ?_
      obtain ⟨result, cs, hrest, hcs, hstops⟩ := ih
      refine ⟨result, cs, hrest, hcs, fun f hf => ?_⟩
      -- The failing item is one of the rest, and this one is written before it.
      obtain ⟨before, u, after, written, left, rfl, hbefore, hu, hl, rfl⟩ := hstops f hf
      exact ⟨v :: before, u, after, bs :: written, left, rfl, .cons hrun hbefore, hu, hl, by simp⟩

end AppendsWords

namespace AllOrNothing

lemma throw (f : Fault) : AllOrNothing (throw f) := AppendsWords.throw rfl

lemma settle {α : Type} {checked : Except Fault α} {k : α → Write} (h : ∀ a, AllOrNothing (k a)) :
    AllOrNothing (Write.settle checked >>= k) := by
  cases checked with
  | ok a => exact h a
  | error f => exact throw f

lemma ite {p : Prop} [Decidable p] (hx : AllOrNothing x) (hy : AllOrNothing y) :
    AllOrNothing (if p then x else y) := by
  split <;> assumption

lemma failWith (n : Int) (f : EncodeFault) : AllOrNothing (Write.failWith n f) :=
  ite (throw _) (throw _)

lemma refuse (c : Conduct) (v : Value) (reason : String → EncodeFault) :
    AllOrNothing (Write.refuse c v reason) := by
  unfold Write.refuse
  split <;> exact throw _

lemma bigEndian (h : 4 ∣ width) (n : Nat) : AllOrNothing (Write.put (bigEndian width n)) :=
  AppendsWords.put (by rwa [bigEndian_length])

lemma number (target : Builtin) (h : 4 ∣ width) (v : Value) :
    AllOrNothing (Write.number target width v) := by
  unfold Write.number
  split
  · exact throw _
  · split
    · exact ite (AppendsWords.put (by rwa [signedBytes_length])) (failWith _ _)
    · exact failWith _ _

lemma scalar (c : Conduct) (b : Builtin) (v : Value) : AllOrNothing (Write.scalar c b v) := by
  have hinteger (target : Builtin) {width : Nat} (h : 4 ∣ width) :
      AllOrNothing (Write.integer c target width v) := ite (throw _) (number target h v)
  have hword (n : Nat) : AllOrNothing (Write.put (Wire.bigEndian 4 n)) := bigEndian (by decide) n
  cases b with
  | int | uint | hyper | uhyper => exact hinteger _ (by decide)
  | float =>
    refine ite (refuse ..) ?_
    repeat' split
    all_goals first | exact hword _ | exact refuse ..
  | double =>
    refine ite (refuse ..) ?_
    repeat' split
    all_goals first | exact bigEndian (by decide) _ | exact refuse ..
  | bool =>
    refine settle fun zero => ite (settle fun _ => hword _) (settle fun one => ite ?_ (refuse ..))
    exact settle fun _ => hword _
  | _ => exact throw _

lemma enum (c : Conduct) (e : EnumClass) (v : Value) : AllOrNothing (Write.enum c e v) := by
  unfold Write.enum
  split
  · refine ite (throw _) (ite (AppendsWords.put ?_) (throw _))
    rw [signedBytes_length]
  · exact refuse ..
  · exact throw _

lemma length (n : Value) (bound : Option Int) : AllOrNothing (Write.length n bound) := by
  have hnumber : AllOrNothing (Write.number .uint 4 n) := number .uint (by decide) n
  unfold Write.length
  split
  · exact hnumber
  · split
    · exact throw _
    · exact failWith _ _
    · exact hnumber

end AllOrNothing

/-- A writer that runs after the word of a length, which is refused if it is beyond the bound. -/
lemma AppendsWords.counted {n : Nat}
    (hy : IsLength bound n → AppendsWords whole y fun f cs => Left f (bigEndian 4 n ++ cs))
    (hleft : ¬IsLength bound n → ∀ f, Left f []) :
    AppendsWords whole (do Write.length (.int n) bound; y) Left := by
  by_cases h : IsLength bound n
  · have hword : Appends (Write.length (.int n) bound) (.ok ()) (bigEndian 4 n) := by
      have := writes_length h
      rwa [Writes, Cells.word, Cells.zeroed_ofBytes] at this
    exact after hword (fun _ => by rw [bigEndian_length]) (hy h)
  · obtain ⟨result, bs, hrun, -, hnone⟩ := AllOrNothing.length (.int n) bound
    cases result with
    | ok =>
      obtain ⟨-, -, hlength, -⟩ := puts_length bound n #[] _ (hrun #[])
      exact absurd hlength h
    | error f =>
      obtain rfl := hnone f rfl
      refine ⟨.error f, [], hrun.bind_error, by simp, ?_⟩
      rintro _ ⟨⟩
      exact hleft h f

lemma AppendsWords.padded {storage : Storage} (h : storage ≠ .sparse) (bs : List UInt8) :
    AppendsWords whole (Write.padded storage bs) Left := by
  refine ⟨.ok (), _, writes_padded h bs, fun _ => ?_, nofun⟩
  rw [Cells.length_zeroed]
  exact Cells.dvd_padded bs

lemma AllOrNothing.padded (storage : Storage) (bs : List UInt8) :
    AllOrNothing (Write.padded storage bs) := by
  by_cases h : storage = .sparse
  · rw [Write.padded, Write.copied, if_pos h]
    exact throw _
  · exact AppendsWords.padded h bs

lemma AllOrNothing.fixedOpaque (n : Int) (v : Value) : AllOrNothing (Write.fixedOpaque n v) := by
  unfold Write.fixedOpaque
  split
  · exact ite (padded ..) (throw _)
  · exact throw _

lemma AppendsWords.varOpaque (bound : Option Int) (v : Value) :
    AppendsWords whole (Write.varOpaque bound v) fun _ => (Form.varOpaque bound).Left v := by
  cases v with
  | bytes data storage =>
    by_cases h : storage = .sparse
    · subst h
      exact counted (fun hn => .throw ⟨fun _ => append_nil _, fun hnot => absurd hn hnot⟩)
        fun hn _ => ⟨fun hlength => absurd hlength hn, fun _ => rfl⟩
    · have hleft : (Form.varOpaque bound).Left (.bytes data storage) = (· = []) := by
        cases storage <;> first | rfl | exact absurd rfl h
      rw [hleft]
      exact counted (fun _ => .padded h data) fun _ _ => rfl
  | _ => exact .throw rfl

lemma Form.appendsWords (c : Encoder) (form : Form) (h : form.isSimple = true) (v : Value) :
    AppendsWords whole (form.write c v) fun _ => form.Left v := by
  have hnone {w : Write} (hw : AllOrNothing w) (hleft : form.Left v []) :
      AppendsWords whole w fun _ => form.Left v := hw.mono fun _ _ hbs => hbs ▸ hleft
  cases form with
  | scalar b => exact hnone (.scalar c.toConduct b v) rfl
  | enum m =>
    cases m with
    | enum e => exact hnone (.enum c.toConduct e v) rfl
    | _ => exact .throw rfl
  | length bound => exact hnone (.length v bound) rfl
  | fixedOpaque n => exact hnone (.fixedOpaque n v) rfl
  | varOpaque bound => exact .varOpaque bound v
  | string bound =>
    cases v with
    | str s => exact .varOpaque bound (.bytes (utf8 s) .fixed)
    | _ => exact .throw rfl
  | flag => exact hnone (.bigEndian (by decide) _) rfl
  | cls | optional | fixedArray | array => cases h

lemma AppendsWords.countedOpaque (c : Conduct) (n v : Value) :
    AppendsWords n.wholeNumber?.isSome (Write.countedOpaque c n v) fun _ => n.Left v := by
  cases v with
  | bytes data storage =>
    simp only [Write.countedOpaque]
    split_ifs with hequal hn
    · have hleft : n.Left (.bytes data storage) [] := by
        simp [Value.Left, Option.isSome_iff_ne_none.1 hn]
      exact (AllOrNothing.padded storage data).mono fun _ _ hbs => hbs ▸ hleft
    · -- only here are the bytes copied before the call fails
      by_cases hlies : storage = .sparse
      · have hleft : n.Left (.bytes data storage) [] := by simp [Value.Left, hlies]
        rw [Write.copied, if_pos hlies]
        exact ⟨_, [], .throw _, by simp, fun _ _ => hleft⟩
      · have hleft : n.Left (.bytes data storage) data := by
          simp [Value.Left, Option.not_isSome_iff_eq_none.1 hn, hequal, hlies]
        rw [Write.copied, if_neg hlies]
        refine ⟨_, data ++ [], (Appends.put data).bind (.throw _), fun h => absurd h hn, fun _ _ => ?_⟩
        rwa [append_nil]
    · have hleft : n.Left (.bytes data storage) [] := by simp [Value.Left, hequal]
      split
      · exact .throw hleft
      · exact (AllOrNothing.refuse c _ _).mono fun _ _ hbs => hbs ▸ hleft
  | _ => exact .throw rfl

lemma Method.appendsWords (c : Encoder) (method : Method) (v : Value) :
    AppendsWords method.isWhole (method.write c v) (method.Left c v) := by
  induction method generalizing v with
  | simple form h => exact form.appendsWords c h v
  | counted n => exact .countedOpaque c.toConduct n v
  | optional item ih =>
    have hflag (b : Bool) : 4 ∣ (bigEndian 4 (if b then 1 else 0)).length := by rw [bigEndian_length]
    cases hv : v.isNull with
    | true =>
      simp only [Method.write, Write.optional, hv, if_true]
      exact .put (hflag false)
    | false =>
      simp only [Method.write, Write.optional, hv, Bool.false_eq_true, if_false]
      obtain ⟨result, left, hrun, hwords, hleft⟩ := ih v
      refine .after (.put _) (fun _ => hflag true) ⟨result, left, hrun, hwords, ?_⟩
      rintro f rfl
      exact ⟨hv, left, hrun, hleft f rfl, rfl⟩
  | fixedArray n item ih =>
    simp only [Method.write, Method.Left, Write.fixedArray, LeavesItems]
    cases c.elements v with
    | none => exact .throw rfl
    | some items =>
      by_cases hn : items.length = n
      · obtain ⟨result, bs, hrun, hwords, hleft⟩ := AppendsWords.each ih items
        simp only [hn, if_true]
        exact ⟨result, bs, hrun, hwords, fun f hf =>
          ⟨fun _ => ⟨bs, hleft f hf, rfl⟩, fun hnot => absurd trivial hnot⟩⟩
      · simp only [hn, if_false]
        exact .throw ⟨False.elim, fun _ => rfl⟩
  | array bound item ih =>
    simp only [Method.write, Method.Left, Write.array, LeavesItems]
    cases c.elements v with
    | none => exact .throw rfl
    | some items =>
      refine .counted (fun hn => ?_) fun hn f => ⟨fun hlength => absurd hlength hn, fun _ => rfl⟩
      obtain ⟨result, bs, hrun, hwords, hleft⟩ := AppendsWords.each ih items
      exact ⟨result, bs, hrun, hwords, fun f hf =>
        ⟨fun _ => ⟨bs, hleft f hf, rfl⟩, fun hnot => absurd hn hnot⟩⟩

namespace Call

def write (c : Encoder) (call : Call) : Write := call.method.write c call.value

/-- The output after calls that are all made, also after one that has failed. -/
def run (c : Encoder) (calls : List Call) (out : Output) : Output :=
  calls.foldl (fun out call => (call.write c out : Except Fault Unit × Output).2) out

/-- What the call appends to any output: whole words if all numbers of bytes are whole, and of a
failed call what it has left. -/
def Adds (c : Encoder) (call : Call) (chunk : List UInt8) : Prop :=
  ∃ result, Appends (call.write c) result chunk ∧
    (call.method.isWhole = true → 4 ∣ chunk.length) ∧
    ∀ f, result = .error f → call.method.Left c call.value f chunk

/-- Calls append one chunk after the other. Each is the same after any calls before it. -/
lemma run_appends (c : Encoder) (calls : List Call) :
    ∃ chunks : List (List UInt8), Forall₂ (Adds c) calls chunks ∧
      ((∀ call ∈ calls, call.method.isWhole = true) → 4 ∣ chunks.flatten.length) ∧
      ∀ out, run c calls out = out.appendList chunks.flatten := by
  induction calls with
  | nil => exact ⟨[], .nil, by simp, fun _ => rfl⟩
  | cons call calls ih =>
    obtain ⟨chunks, hchunks, hwords, hrun⟩ := ih
    obtain ⟨result, chunk, happends, hdvd, hleft⟩ := call.method.appendsWords c call.value
    refine ⟨chunk :: chunks, .cons ⟨result, happends, hdvd, hleft⟩ hchunks, fun hall => ?_,
      fun out => ?_⟩
    · obtain ⟨hfirst, hrest⟩ := forall_mem_cons.1 hall
      rw [flatten_cons, length_append]
      exact Nat.dvd_add (hdvd hfirst) (hwords hrest)
    · rw [run, foldl_cons, write, happends, flatten_cons, ← appendList_appendList]
      exact hrun _

end Call

/-- Each call appends its own chunk to any output, also after calls that have failed, and the output
of calls from the start is a whole number of words if every number of bytes in them is whole. -/
theorem calls_append_words (c : Encoder) (calls : List Call) :
    ((∀ call ∈ calls, call.method.isWhole = true) → 4 ∣ (Call.run c calls #[]).size) ∧
      ∃ chunks : List (List UInt8), Forall₂ (Call.Adds c) calls chunks ∧
        ∀ out, (Call.run c calls out).toList = out.toList ++ chunks.flatten := by
  obtain ⟨chunks, hchunks, hwords, hrun⟩ := Call.run_appends c calls
  have htoList (out : Output) : (Call.run c calls out).toList = out.toList ++ chunks.flatten := by
    rw [hrun]
    simp [Array.appendList]
  refine ⟨fun hall => ?_, chunks, hchunks, htoList⟩
  rw [← Array.length_toList, htoList, nil_append]
  exact hwords hall

end Xdr
