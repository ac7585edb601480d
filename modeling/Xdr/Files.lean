import Xdr.Text.Path
import Xdr.Text.Quoted
import Xdr.Wire.Utf8

/-!
# Files

A tree of folders and files around a working folder. A path is followed name by name; every name but
the last must lead to a folder, and no name may be too long.
-/

namespace Xdr

open List

abbrev Place := List String

inductive FileEntry
  | file (data : List UInt8) (modified : Int)
  | folder
deriving DecidableEq

inductive FileFault
  | missing
  | notFolder
  | isFolder
  | taken
  | denied
  | tooLong
  /-- The path holds a null character, and so cannot be asked for. -/
  | nullCharacter
deriving DecidableEq

def FileFault.message (f : FileFault) (path : Path) : String :=
  let what :=
    match f with
    | missing => "[Errno 2] No such file or directory"
    | denied => "[Errno 13] Permission denied"
    | taken => "[Errno 17] File exists"
    | notFolder => "[Errno 20] Not a directory"
    | isFolder => "[Errno 21] Is a directory"
    | tooLong => "[Errno 36] File name too long"
    | nullCharacter => "embedded null byte"
  what ++ ": " ++ Text.quote path.text

structure Files where
  entries : List (Place × FileEntry) := []
  clock : Int := 0

namespace Files

def isGiven (place : Place) : Bool := place.all (· = "..") || place = ["/"]

def lookup? (fs : Files) (place : Place) : Option FileEntry :=
  if isGiven place then some .folder else fs.entries.lookup place

def erase (fs : Files) (place : Place) : Files :=
  { fs with entries := fs.entries.filter fun x => x.1 != place }

def put (fs : Files) (place : Place) (e : FileEntry) : Files :=
  { fs with entries := (place, e) :: (fs.erase place).entries }

theorem lookup_filter_ne (entries : List (Place × FileEntry)) (place other : Place)
    (h : other ≠ place) :
    (entries.filter fun x => x.1 != place).lookup other = entries.lookup other := by
  induction entries with
  | nil => rfl
  | cons x rest ih =>
    obtain ⟨key, e⟩ := x
    by_cases hk : key = place
    · have hne : (other == key) = false := by simpa [hk] using h
      rw [filter_cons_of_neg (by simp [hk]), ih, lookup_cons, hne]
    · rw [filter_cons_of_pos (by simpa using hk), lookup_cons, lookup_cons, ih]

theorem lookup_filter_self (entries : List (Place × FileEntry)) (place : Place) :
    (entries.filter fun x => x.1 != place).lookup place = none := by
  induction entries with
  | nil => rfl
  | cons x rest ih =>
    obtain ⟨key, e⟩ := x
    by_cases hk : key = place
    · rw [filter_cons_of_neg (by simp [hk]), ih]
    · have hne : (place == key) = false := by simpa using fun h => hk h.symm
      rw [filter_cons_of_pos (by simpa using hk), lookup_cons, hne]
      exact ih

theorem lookup?_erase_ne (fs : Files) (place other : Place) (h : other ≠ place) :
    (fs.erase place).lookup? other = fs.lookup? other := by
  simp only [lookup?, erase, lookup_filter_ne fs.entries place other h]

theorem lookup?_erase_self (fs : Files) (place : Place) (h : isGiven place = false) :
    (fs.erase place).lookup? place = none := by
  simp only [lookup?, erase, h, lookup_filter_self, Bool.false_eq_true, if_false]

theorem lookup?_put_ne (fs : Files) (place other : Place) (e : FileEntry) (h : other ≠ place) :
    (fs.put place e).lookup? other = fs.lookup? other := by
  have hne : (other == place) = false := by simpa using h
  simp only [lookup?, put, erase, lookup_cons, hne, lookup_filter_ne fs.entries place other h]

theorem lookup?_put_self (fs : Files) (place : Place) (e : FileEntry) (h : isGiven place = false) :
    (fs.put place e).lookup? place = some e := by
  simp only [lookup?, put, h, lookup_cons_self, Bool.false_eq_true, if_false]

def step (here : Place) (name : String) : Place :=
  if name = ".." then
    if here = ["/"] then here
    else if here.all (· = "..") then here ++ [".."]
    else here.dropLast
  else here ++ [name]

def maxNameBytes : Nat := 255

def maxPathBytes : Nat := 4095

def isTooLong (name : String) : Bool := maxNameBytes < (Wire.utf8 name).length

def follow (fs : Files) (here : Place) : List String → Except FileFault Place
  | [] => .ok here
  | name :: rest =>
    match fs.lookup? here with
    | some .folder =>
      if isTooLong name then .error .tooLong else fs.follow (step here name) rest
    | some (.file _ _) => .error .notFolder
    | none => .error .missing

def start (p : Path) : Except FileFault Place :=
  if p.text.toList.contains '\x00' then .error .nullCharacter
  else if maxPathBytes < (Wire.utf8 p.text).length then .error .tooLong
  else .ok (if p.root.isEmpty then [] else ["/"])

def locate (fs : Files) (p : Path) : Except FileFault Place := do
  fs.follow (← start p) p.parts

def has (fs : Files) (p : Path) : Except FileFault Bool :=
  match fs.locate p with
  | .ok place => .ok (fs.lookup? place).isSome
  | .error .tooLong => .error .tooLong
  | .error _ => .ok false

def read (fs : Files) (p : Path) : Except FileFault (List UInt8) := do
  match fs.lookup? (← fs.locate p) with
  | some (.file data _) => .ok data
  | some .folder => .error .isFolder
  | none => .error .missing

def status (fs : Files) (p : Path) : Except FileFault (Int × Nat) := do
  match fs.lookup? (← fs.locate p) with
  | some (.file data modified) => .ok (modified, data.length)
  | some .folder => .ok (0, 4096)
  | none => .error .missing

def write (fs : Files) (p : Path) (data : List UInt8) : Except FileFault Files := do
  let place ← fs.locate p
  match fs.lookup? place with
  | some .folder => .error .isFolder
  | _ => .ok { fs.put place (.file data fs.clock) with clock := fs.clock + 1 }

def touch (fs : Files) (p : Path) (modified : Int) : Except FileFault Files := do
  let place ← fs.locate p
  match fs.lookup? place with
  | some (.file data _) => .ok (fs.put place (.file data modified))
  | some .folder => .ok fs
  | none => .error .missing

def remove (fs : Files) (p : Path) : Except FileFault Files := do
  let place ← fs.locate p
  match fs.lookup? place with
  | some (.file _ _) => .ok (fs.erase place)
  | some .folder => .error .isFolder
  | none => .error .missing

def makeFrom (fs : Files) (here : Place) : List String → Except FileFault Files
  | [] => .ok fs
  | name :: rest =>
    if isTooLong name then .error .tooLong
    else
      let there := step here name
      match fs.lookup? there with
      | some .folder => fs.makeFrom there rest
      | some (.file _ _) => .error (if rest.isEmpty then .taken else .notFolder)
      | none => (fs.put there .folder).makeFrom there rest

def makeFolder (fs : Files) (p : Path) : Except FileFault Files := do
  fs.makeFrom (← start p) p.parts

def store (fs : Files) (p : Path) (data : List UInt8) : Except FileFault Files := do
  (← fs.makeFolder p.parent).write p data

def contents (fs : Files) : List (Place × List UInt8) :=
  fs.entries.filterMap fun (place, e) =>
    match e with
    | .file data _ => if place.head? = some ".." || place.head? = some "/" then none
      else some (place, data)
    | .folder => none

end Files

end Xdr
