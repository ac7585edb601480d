import Xdr.Toml.Value

/-!
# Tables and their marks

Tables are nested by keys with several parts. Marks say which names may not be opened again: a
table that was declared, and everything inside an array or table written in place.
-/

namespace Xdr.Toml

namespace Table

def find? (t : Table) (name : String) : Option Value := List.lookup name t

def put : Table → String → Value → Table
  | [], name, v => [(name, v)]
  | (n, w) :: rest, name, v => if n = name then (n, v) :: rest else (n, w) :: put rest name v

/-- Changes the table that the parts of a key lead to, making tables on the way. A list on the way
stands for its last entry, where lists may be entered. Anything else on the way is in the way. -/
def modifyAt (enterLists : Bool) (f : Table → Option Table) : Key → Table → Option Table
  | [], t => f t
  | part :: rest, t =>
    match t.find? part with
    | none => (modifyAt enterLists f rest []).map fun inner => t.put part (.table inner)
    | some (.table inner) =>
      (modifyAt enterLists f rest inner).map fun inner => t.put part (.table inner)
    | some (.array items) =>
      match enterLists, items.getLast? with
      | true, some (.table inner) =>
        (modifyAt enterLists f rest inner).map fun inner =>
          t.put part (.array (items.dropLast ++ [.table inner]))
      | _, _ => none
    | some _ => none

end Table

inductive Mark
  | frozen
  | declared
deriving DecidableEq

abbrev Marks := List (Key × Mark)

namespace Marks

def has (marks : Marks) (key : Key) (m : Mark) : Bool :=
  !key.isEmpty && marks.any fun (k, n) =>
    n = m && (k = key || (m = .frozen && k.length < key.length && key.take k.length = k))

def clear (marks : Marks) (key : Key) : Marks :=
  marks.filter fun (k, _) => key != k.take key.length

end Marks

end Xdr.Toml
