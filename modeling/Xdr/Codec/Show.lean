import Xdr.Module.Body

/-!
# Values as text

An instance is shown by its class and its fields.
-/

namespace Xdr

namespace Module

def next (m : Module) (c : ChainBody) (node : Value) : Except Fault Value :=
  c.wrappers.foldlM (fun v _ => m.attr v "value") =<< m.attr node c.link

def canReverse (m : Module) : Except Fault Unit := m.builtinCall "reversed" [.list []]

end Module

namespace Shown

def all (self : Value → Except Fault String) : List Value → Except Fault (List String)
  | [] => .ok []
  | v :: rest => do
    let text ← self v
    return text :: (← all self rest)

def fields (self : Value → Except Fault String) :
    List (String × Value) → Except Fault (List String)
  | [] => .ok []
  | (name, v) :: rest => do
    let text ← self v
    return (name ++ "=" ++ text) :: (← fields self rest)

def slots (m : Module) (self : Value → Except Fault String) (node : Value) :
    List Slot → Except Fault (List String)
  | [] => .ok []
  | s :: rest => do
    let text ← self (← m.attr node s.attr)
    return (s.shown ++ "=" ++ text) :: (← slots m self node rest)

def chain (m : Module) (self : Value → Except Fault String) (c : ChainBody) :
    Nat → Value → List String → List String → Except Fault (List String × List String)
  | 0, _, _, _ => .error .tooDeep
  | n + 1, node, parts, tails =>
    if node.isNull then .ok (parts, tails)
    else do
      let opening := String.join (c.wrappers.map fun w => w.1 ++ "(value=")
      let closing := String.join (c.wrappers.map fun _ => ")")
      let heads ← slots m self node c.before
      let part := node.qualifiedTypeName ++ "(" ++
        String.intercalate ", " (heads ++ [c.linkShown ++ "=" ++ opening])
      let rest ← slots m self node c.behind
      let tail := closing ++ String.join (rest.map (", " ++ ·)) ++ ")"
      chain m self c n (← m.next c node) (part :: parts) (tail :: tails)

end Shown

namespace Module

def shownName (m : Module) (key : ClassKey) (fields : List (String × Value)) :
    Except Fault String :=
  match fields.lookup "__class__" with
  | none => .ok key.qualifiedName
  | some (.thing name) => .ok name
  | some v => do
    match ← m.attr v "__qualname__" with
    | .str s => return s
    | _ => throw .notApplicable

def textAt (m : Module) : Nat → Value → Except Fault String
  | 0, _ => .error .tooDeep
  | n + 1, v =>
    match v with
    | .list items => do
      return "[" ++ String.intercalate ", " (← Shown.all (m.textAt n) items) ++ "]"
    | .object key fields =>
      match m.body? key with
      | some (.chain c) => do
        let (parts, tails) ← Shown.chain m (m.textAt n) c (n + 1) v [] []
        m.canReverse
        return String.join (parts.reverse ++ "None" :: tails)
      | some (.record _) | some (.arm _) => do
        if m.isBroken key "__repr__" then throw .notApplicable
        if (m.veil? v).isSome then
          let _ ← m.attr v "__class__"
          throw .tooDeep
        let name ← m.shownName key fields
        let texts ← Shown.fields (m.textAt n) fields
        return name ++ "(" ++ String.intercalate ", " texts ++ ")"
      | _ =>
        if (m.special? key "__repr__").isSome then .error .notApplicable
        else .ok ("<" ++ key.qualifiedName ++ " object>")
    | .member _ _ _ =>
      if m.isSpoilt v "__repr__" then .error .notApplicable
      else if m.isSpoilt v "__class__" then .error .noAttribute
      else .ok v.plainText
    | .int n => if Number.isWritable n then .ok v.plainText else .error .badValue
    | _ => .ok v.plainText

def text (m : Module) (v : Value) : Except Fault String := m.textAt (v.depth + 2) v

end Module

end Xdr
