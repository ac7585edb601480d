import Xdr.Module.Body
import Xdr.Proofs.Wire.Readers

/-!
# The wire format

Which values a type has, and which cells a value of a type is laid out in.
-/

namespace Xdr

open Wire

/-- The values of a builtin scalar type. `F` and `D` hold of the numbers that may stand in four and in
eight bytes. -/
inductive ScalarTyped (F D : UInt64 → Prop) : Builtin → Value → Prop
  | int (n : Int) : ScalarTyped F D .int (.int n)
  | uint (n : Int) : ScalarTyped F D .uint (.int n)
  | hyper (n : Int) : ScalarTyped F D .hyper (.int n)
  | uhyper (n : Int) : ScalarTyped F D .uhyper (.int n)
  | float {bits : UInt64} (h : F bits) : ScalarTyped F D .float (.float bits)
  | double {bits : UInt64} (h : D bits) : ScalarTyped F D .double (.float bits)
  | bool (b : Bool) : ScalarTyped F D .bool (.bool b)

inductive ScalarLaid (R : UInt64 → Nat → Prop) : Builtin → Value → Cells → Prop
  | int {n : Int} (h : FitsSigned 4 n) : ScalarLaid R .int (.int n) (.number n)
  | uint {n : Nat} (h : n < 256 ^ 4) : ScalarLaid R .uint (.int n) (.word n)
  | hyper {n : Int} (h : FitsSigned 8 n) :
      ScalarLaid R .hyper (.int n) (.ofBytes (signedBytes 8 n))
  | uhyper {n : Nat} (h : n < 256 ^ 8) : ScalarLaid R .uhyper (.int n) (.ofBytes (bigEndian 8 n))
  | float {bits : UInt64} {n : Nat} (hn : n < 256 ^ 4) (h : R bits n) :
      ScalarLaid R .float (.float bits) (.word n)
  | double (bits : UInt64) : ScalarLaid R .double (.float bits) (.ofBytes (bigEndian 8 bits.toNat))
  | bool (b : Bool) : ScalarLaid R .bool (.bool b) (.word b.toNat)

/-- The values of a form, when `T` holds of the instances of each class. -/
inductive FormTyped (T : ClassKey → Value → Prop) (F D : UInt64 → Prop) : Form → Value → Prop
  | scalar {b : Builtin} {v : Value} (h : ScalarTyped F D b v) : FormTyped T F D (.scalar b) v
  | enum {e : EnumClass} {variant : String} {n : Int} (h : (variant, n) ∈ e.members) :
      FormTyped T F D (.enum (.enum e)) (.member e.name variant n)
  | cls {key : ClassKey} {v : Value} (h : T key v) : FormTyped T F D (.cls (.cls key)) v
  | fixedOpaque {n : Int} {bs : List UInt8} {storage : Storage} (h : storage.isPlain = true) :
      FormTyped T F D (.fixedOpaque n) (.bytes bs storage)
  | varOpaque {bound : Option Int} {bs : List UInt8} {storage : Storage} (h : storage.isPlain = true) :
      FormTyped T F D (.varOpaque bound) (.bytes bs storage)
  | string {bound : Option Int} (s : String) : FormTyped T F D (.string bound) (.str s)
  | absent {item : Form} : FormTyped T F D (.optional item) .null
  | present {item : Form} {v : Value} (h : FormTyped T F D item v) :
      FormTyped T F D (.optional item) v
  | fixedArray {n : Int} {item : Form} {items : List Value}
      (h : ∀ v ∈ items, FormTyped T F D item v) : FormTyped T F D (.fixedArray n item) (.list items)
  | array {bound : Option Int} {item : Form} {items : List Value}
      (h : ∀ v ∈ items, FormTyped T F D item v) : FormTyped T F D (.array bound item) (.list items)

mutual

/-- The cells of a value of a form, when `I` gives those of the instances of each class. -/
inductive FormLaid (I : ClassKey → Value → Cells → Prop) (R : UInt64 → Nat → Prop) :
    Form → Value → Cells → Prop
  | scalar {b : Builtin} {v : Value} {c : Cells} (h : ScalarLaid R b v c) :
      FormLaid I R (.scalar b) v c
  | enum {e : EnumClass} {variant : String} {n : Int} (h : (variant, n) ∈ e.members)
      (hn : FitsSigned 4 n) : FormLaid I R (.enum (.enum e)) (.member e.name variant n) (.number n)
  | cls {key : ClassKey} {v : Value} {c : Cells} (h : I key v c) :
      FormLaid I R (.cls (.cls key)) v c
  | fixedOpaque {n : Int} {bs : List UInt8} {storage : Storage} (h : (bs.length : Int) = n)
      (lies : storage ≠ .sparse) : FormLaid I R (.fixedOpaque n) (.bytes bs storage) (.padded bs)
  | varOpaque {bound : Option Int} {bs : List UInt8} {storage : Storage}
      (h : IsLength bound bs.length) (lies : storage ≠ .sparse) :
      FormLaid I R (.varOpaque bound) (.bytes bs storage) (.word bs.length ++ .padded bs)
  | string {bound : Option Int} {s : String} (h : IsLength bound (utf8 s).length) :
      FormLaid I R (.string bound) (.str s) (.word (utf8 s).length ++ .padded (utf8 s))
  | absent {item : Form} : FormLaid I R (.optional item) .null (.word 0)
  | present {item : Form} {v : Value} {c : Cells} (hv : v.isNull = false)
      (h : FormLaid I R item v c) : FormLaid I R (.optional item) v (.word 1 ++ c)
  | fixedArray {n : Int} {item : Form} {items : List Value} {c : Cells}
      (hn : (items.length : Int) = n) (h : ItemsLaid I R item items c) :
      FormLaid I R (.fixedArray n item) (.list items) c
  | array {bound : Option Int} {item : Form} {items : List Value} {c : Cells}
      (hn : IsLength bound items.length) (h : ItemsLaid I R item items c) :
      FormLaid I R (.array bound item) (.list items) (.word items.length ++ c)

/-- The cells of values of a form, one after the other. -/
inductive ItemsLaid (I : ClassKey → Value → Cells → Prop) (R : UInt64 → Nat → Prop) :
    Form → List Value → Cells → Prop
  | nil {item : Form} : ItemsLaid I R item [] []
  | cons {item : Form} {v : Value} {rest : List Value} {c d : Cells} (h : FormLaid I R item v c)
      (hrest : ItemsLaid I R item rest d) : ItemsLaid I R item (v :: rest) (c ++ d)

end

inductive FieldsTyped (T : ClassKey → Value → Prop) (F D : UInt64 → Prop) :
    List (String × Form) → List (String × Value) → Prop
  | nil : FieldsTyped T F D [] []
  | cons {name : String} {form : Form} {fields : List (String × Form)} {v : Value}
      {vs : List (String × Value)} (h : FormTyped T F D form v)
      (hrest : FieldsTyped T F D fields vs) :
      FieldsTyped T F D ((name, form) :: fields) ((name, v) :: vs)

inductive FieldsLaid (I : ClassKey → Value → Cells → Prop) (R : UInt64 → Nat → Prop) :
    List (String × Form) → List (String × Value) → Cells → Prop
  | nil : FieldsLaid I R [] [] []
  | cons {name : String} {form : Form} {fields : List (String × Form)} {v : Value}
      {vs : List (String × Value)} {c d : Cells} (h : FormLaid I R form v c)
      (hrest : FieldsLaid I R fields vs d) :
      FieldsLaid I R ((name, form) :: fields) ((name, v) :: vs) (c ++ d)

namespace Schema

/-- What a mention of a type is meant to stand for. -/
def meant (s : Schema) (name : String) : Mention :=
  match s.find? name with
  | some ⟨.enum e, _, _, _, _⟩ => .enum ⟨e.name, e.variants, []⟩
  | _ => .cls (.type name)

def formOf (s : Schema) (shape : Shape) : Form := s.form s.meant shape

def formNamed (s : Schema) (name : String) : Form := s.formOf (.scalar (.named name))

def fieldsOf (s : Schema) (decls : List (String × Decl)) : List (String × Form) :=
  decls.map fun f => (f.1, s.formOf f.2.toShape)

def fields? (s : Schema) (name : String) : Option (List (String × Form)) :=
  match s.find? name with
  | some ⟨.struct d, _, _, _, _⟩ => some (s.fieldsOf d.plan)
  | some ⟨.typedef d, _, _, _, _⟩ => some [("value", s.formOf d.decl.toShape)]
  | _ => none

def plan? (s : Schema) (name : String) : Option UnionPlan :=
  match s.find? name with
  | some ⟨.union u, _, _, _, _⟩ => s.unionPlan? u
  | _ => none

/-- The field for what an arm holds, if it holds anything. -/
def payload (s : Schema) (a : ArmPlan) : List (String × Form) :=
  a.payload?.toList.map fun name => (name, s.formOf a.decl.toShape)

/-- The instances of a type that is no enum. An arm of a union holds its discriminant behind all
else. -/
inductive HasInstance (s : Schema) (F D : UInt64 → Prop) : ClassKey → Value → Prop
  | record {name : String} {fields : List (String × Form)} {vs : List (String × Value)}
      (hfields : s.fields? name = some fields) (h : FieldsTyped (HasInstance s F D) F D fields vs) :
      HasInstance s F D (.type name) (.object (.type name) vs)
  | union {name : String} {p : UnionPlan} {a : ArmPlan} {disc : Value}
      {vs : List (String × Value)} (hplan : s.plan? name = some p) (ha : a ∈ p.arms)
      (hdisc : FormTyped (HasInstance s F D) F D (s.formOf p.disc) disc)
      (h : FieldsTyped (HasInstance s F D) F D (s.payload a) vs) :
      HasInstance s F D (.type name) (.object (.arm name a.attr) (vs ++ [(p.discField, disc)]))

/-- The cells of an instance of a type that is no enum: its fields, or the discriminant and what the
arm holds that the discriminant selects. -/
inductive InstanceLaid (s : Schema) (R : UInt64 → Nat → Prop) : ClassKey → Value → Cells → Prop
  | record {name : String} {fields : List (String × Form)} {vs : List (String × Value)} {c : Cells}
      (hfields : s.fields? name = some fields) (h : FieldsLaid (InstanceLaid s R) R fields vs c) :
      InstanceLaid s R (.type name) (.object (.type name) vs) c
  | union {name : String} {p : UnionPlan} {a : ArmPlan} {disc : Value} {k : Int}
      {vs : List (String × Value)} {c d : Cells} (hplan : s.plan? name = some p)
      (hdisc : FormLaid (InstanceLaid s R) R (s.formOf p.disc) disc c)
      (hk : disc.wholeNumber? = some k) (ha : p.select? k = some a)
      (h : FieldsLaid (InstanceLaid s R) R (s.payload a) vs d) :
      InstanceLaid s R (.type name) (.object (.arm name a.attr) (vs ++ [(p.discField, disc)]))
        (c ++ d)

abbrev Types (s : Schema) (F D : UInt64 → Prop) := FormTyped (s.HasInstance F D) F D

abbrev TypesAll (s : Schema) (F D : UInt64 → Prop) := FieldsTyped (s.HasInstance F D) F D

abbrev Lays (s : Schema) (R : UInt64 → Nat → Prop) := FormLaid (s.InstanceLaid R) R

abbrev LaysAll (s : Schema) (R : UInt64 → Nat → Prop) := FieldsLaid (s.InstanceLaid R) R

def HasType (s : Schema) (F D : UInt64 → Prop) (name : String) (v : Value) : Prop :=
  FormTyped (s.HasInstance F D) F D (s.formNamed name) v

/-- The cells of a value of a type of the schema. -/
def Laid (s : Schema) (R : UInt64 → Nat → Prop) (name : String) (v : Value) (c : Cells) : Prop :=
  FormLaid (s.InstanceLaid R) R (s.formNamed name) v c

end Schema

end Xdr
