import Mathlib
import Xdr.Value

/-!
# Parts of values

What is said of a value is said of the items and the fields that it holds: its depth, the
floating-point numbers in it, how its bytes are stored, and which classes its instances have.
-/

namespace Xdr.Value

open List

variable {fields : Fields} {P : UInt64 → Prop} {items : List Value} {v : Value}
  {key : ClassKey}

lemma depth_le_of_mem_items (h : v ∈ items) : v.depth ≤ depthItems items := by
  induction items with
  | nil => cases h
  | cons w rest ih =>
    rw [depthItems]
    rcases mem_cons.1 h with rfl | h
    · exact le_max_left _ _
    · exact (ih h).trans (le_max_right _ _)

lemma depth_le_of_mem_fields {f : String × Value} (h : f ∈ fields) :
    f.2.depth ≤ depthFields fields := by
  induction fields with
  | nil => cases h
  | cons g rest ih =>
    obtain ⟨name, v⟩ := g
    rw [depthFields, depthField]
    rcases mem_cons.1 h with rfl | h
    · exact le_max_left _ _
    · exact (ih h).trans (le_max_right _ _)

lemma depth_lt_list (h : v ∈ items) : v.depth < (list items).depth :=
  Nat.lt_succ_of_le (depth_le_of_mem_items h)

lemma depth_lt_object (key : ClassKey) {f : String × Value} (h : f ∈ fields) :
    f.2.depth < (object key fields).depth :=
  Nat.lt_succ_of_le (depth_le_of_mem_fields h)

mutual

/-- Every floating-point number in a value has a property. -/
def AllFloats (P : UInt64 → Prop) : Value → Prop
  | float bits => P bits
  | list items => AllFloatsItems P items
  | object _ fields => AllFloatsFields P fields
  | _ => True

def AllFloatsItems (P : UInt64 → Prop) : List Value → Prop
  | [] => True
  | v :: rest => v.AllFloats P ∧ AllFloatsItems P rest

def AllFloatsFields (P : UInt64 → Prop) : List (String × Value) → Prop
  | [] => True
  | f :: rest => AllFloatsField P f ∧ AllFloatsFields P rest

def AllFloatsField (P : UInt64 → Prop) : String × Value → Prop
  | (_, v) => v.AllFloats P

end

lemma allFloats_list : (list items).AllFloats P ↔ ∀ v ∈ items, v.AllFloats P := by
  rw [AllFloats]
  induction items with
  | nil => simp [AllFloatsItems]
  | cons v rest ih => rw [AllFloatsItems, ih, forall_mem_cons]

lemma allFloats_object : (object key fields).AllFloats P ↔ ∀ f ∈ fields, f.2.AllFloats P := by
  rw [AllFloats]
  induction fields with
  | nil => simp [AllFloatsFields]
  | cons f rest ih => rw [AllFloatsFields, ih, forall_mem_cons, AllFloatsField]

mutual

lemma allFloats_of_forall (h : ∀ bits, P bits) : ∀ v : Value, v.AllFloats P
  | null | bool _ | int _ => by simp [AllFloats]
  | float bits => by simpa [AllFloats] using h bits
  | str _ | bytes _ _ => by simp [AllFloats]
  | list items => by simpa only [AllFloats] using allFloatsItems_of_forall h items
  | member _ _ _ => by simp [AllFloats]
  | object _ fields => by simpa only [AllFloats] using allFloatsFields_of_forall h fields
  | cls _ | library _ | measurer _ | thing _ => by simp [AllFloats]

lemma allFloatsItems_of_forall (h : ∀ bits, P bits) :
    ∀ items, AllFloatsItems P items
  | [] => trivial
  | v :: rest => ⟨allFloats_of_forall h v, allFloatsItems_of_forall h rest⟩

lemma allFloatsFields_of_forall (h : ∀ bits, P bits) :
    ∀ fields, AllFloatsFields P fields
  | [] => trivial
  | f :: rest => ⟨allFloatsField_of_forall h f, allFloatsFields_of_forall h rest⟩

lemma allFloatsField_of_forall (h : ∀ bits, P bits) :
    ∀ f, AllFloatsField P f
  | (_, v) => allFloats_of_forall h v

end

mutual

def viewed : Value → Value
  | bytes bs _ => bytes bs .view
  | list items => list (viewedItems items)
  | object key fields => object key (viewedFields fields)
  | v => v

def viewedItems : List Value → List Value
  | [] => []
  | v :: rest => v.viewed :: viewedItems rest

def viewedFields : List (String × Value) → List (String × Value)
  | [] => []
  | f :: rest => viewedField f :: viewedFields rest

def viewedField : String × Value → String × Value
  | (name, v) => (name, v.viewed)

end

lemma viewedItems_eq_map (items : List Value) : viewedItems items = items.map viewed := by
  induction items with
  | nil => rfl
  | cons v rest ih => rw [viewedItems, ih, map_cons]

lemma viewedFields_eq_map (fields : Fields) :
    viewedFields fields = fields.map fun f => (f.1, f.2.viewed) := by
  induction fields with
  | nil => rfl
  | cons f rest ih => rw [viewedFields, ih, map_cons, viewedField]

lemma viewed_null : null.viewed = null := by simp [viewed]

lemma viewed_list (items : List Value) : (list items).viewed = list (items.map viewed) := by
  rw [viewed, viewedItems_eq_map]

lemma viewed_object (key : ClassKey) (fields : Fields) :
    (object key fields).viewed = object key (fields.map fun f => (f.1, f.2.viewed)) := by
  rw [viewed, viewedFields_eq_map]

lemma viewed_object_of_forall (h : ∀ f ∈ fields, f.2.viewed = f.2) :
    (object key fields).viewed = object key fields := by
  have hsame : fields.map (fun f => (f.1, f.2.viewed)) = fields := by
    conv_rhs => rw [← map_id fields]
    exact map_congr_left fun f hf => by rw [h f hf]; rfl
  rw [viewed_object, hsame]

mutual

lemma depth_viewed : ∀ v : Value, v.viewed.depth = v.depth
  | null | bool _ | int _ | float _ | str _ => by simp only [viewed]
  | bytes _ _ => by simp only [viewed, depth]
  | list items => by simp only [viewed, depth, depth_viewedItems items]
  | member _ _ _ => by simp only [viewed]
  | object _ fields => by simp only [viewed, depth, depth_viewedFields fields]
  | cls _ | library _ | measurer _ | thing _ => by simp only [viewed]

lemma depth_viewedItems : ∀ items, depthItems (viewedItems items) = depthItems items
  | [] => rfl
  | v :: rest => by simp only [viewedItems, depthItems, depth_viewed v, depth_viewedItems rest]

lemma depth_viewedFields : ∀ fields, depthFields (viewedFields fields) = depthFields fields
  | [] => rfl
  | f :: rest => by
    simp only [viewedFields, depthFields, depth_viewedField f, depth_viewedFields rest]

lemma depth_viewedField : ∀ f, depthField (viewedField f) = depthField f
  | (_, v) => by simp only [viewedField, depthField, depth_viewed v]

end

mutual

/-- The value with its instances taken for instances of other classes. -/
def recast (f : ClassKey → ClassKey) : Value → Value
  | list items => list (recastItems f items)
  | object key fields => object (f key) (recastFields f fields)
  | v => v

def recastItems (f : ClassKey → ClassKey) : List Value → List Value
  | [] => []
  | v :: rest => v.recast f :: recastItems f rest

def recastFields (f : ClassKey → ClassKey) : List (String × Value) → List (String × Value)
  | [] => []
  | g :: rest => recastField f g :: recastFields f rest

def recastField (f : ClassKey → ClassKey) : String × Value → String × Value
  | (name, v) => (name, v.recast f)

end

section

variable (f : ClassKey → ClassKey)

lemma recast_list (items : List Value) : (list items).recast f = list (items.map (recast f)) := by
  have hitems : recastItems f items = items.map (recast f) := by
    induction items with
    | nil => rfl
    | cons v rest ih => rw [recastItems, ih, map_cons]
  rw [recast, hitems]

lemma recast_object (key : ClassKey) (fields : Fields) :
    (object key fields).recast f = object (f key) (fields.map fun g => (g.1, g.2.recast f)) := by
  have hfields : recastFields f fields = fields.map fun g => (g.1, g.2.recast f) := by
    induction fields with
    | nil => rfl
    | cons g rest ih => rw [recastFields, ih, map_cons, recastField]
  rw [recast, hfields]

lemma isNull_recast (v : Value) : (v.recast f).isNull = v.isNull := by
  cases v <;> simp only [recast, isNull]

lemma recast_number {k : Int} (h : v.wholeNumber? = some k) : v.recast f = v := by
  cases v <;> simp_all [recast, wholeNumber?, integer?]

end

end Xdr.Value
