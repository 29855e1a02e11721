import ApiReview.Path.Normal

/-!
# A tree of files

The files that a run sees, as a value: the entries by their places below the root, and the folder
from which relative paths are read. A path is looked up by walking over its pieces, so that each
piece before the last has to be a folder; the walk gives the place that the path names or the error
of the first piece that stops it. Looking a place up after it was set gives what was set, and every
other place is as before (`entryAt?_set_self`, `entryAt?_set_of_ne`).
-/

namespace ApiReview

/-- What a file holds: a text, or bytes that are no text. -/
inductive Content where
  | text (s : String)
  | binary (bytes : List UInt8)
  deriving DecidableEq, Repr

/-- What stands at a place. -/
inductive Entry where
  | folder
  | file (content : Content)
  deriving DecidableEq, Repr

/-- Why an operation on a path fails. -/
inductive FileError where
  | notFound
  | alreadyExists
  | notFolder
  | isFolder
  | nameTooLong
  | notText
  | zeroByte
  deriving DecidableEq, Repr

/-- The wording of a file error. -/
def FileError.message : FileError → String
  | notFound => "No such file or directory (os error 2)"
  | alreadyExists => "File exists (os error 17)"
  | notFolder => "Not a directory (os error 20)"
  | isFolder => "Is a directory (os error 21)"
  | nameTooLong => "File name too long (os error 36)"
  | notText => "stream did not contain valid UTF-8"
  | zeroByte => "file name contained an unexpected NUL byte"

/-- The names from the root to an entry. -/
abbrev Place := List (List Char)

/-- The files that a run sees. The root is a folder that needs no entry. -/
structure FileTree where
  entries : List (Place × Entry)
  workingFolder : Place
  deriving DecidableEq, Repr

namespace FileTree

/-- The entry at a place. -/
def entryAt? (t : FileTree) (place : Place) : Option Entry :=
  if place = [] then some .folder else t.entries.lookup place

/-- The entries with one set. -/
def setIn (place : Place) (entry : Entry) : List (Place × Entry) → List (Place × Entry)
  | [] => [(place, entry)]
  | (p, e) :: rest => if p = place then (p, entry) :: rest else (p, e) :: setIn place entry rest

/-- The tree with an entry set. -/
def set (t : FileTree) (place : Place) (entry : Entry) : FileTree :=
  { t with entries := setIn place entry t.entries }

/-- The tree without a place and what lies below it. -/
def remove (t : FileTree) (place : Place) : FileTree :=
  { t with entries := t.entries.filter fun e => !place.isPrefixOf e.1 }

theorem lookup_setIn_self (place : Place) (entry : Entry) (entries : List (Place × Entry)) :
    (setIn place entry entries).lookup place = some entry := by
  induction entries with
  | nil => simp [setIn]
  | cons e rest ih =>
    obtain ⟨p, e⟩ := e
    simp only [setIn]
    split
    · rename_i h; simp [h]
    · rename_i h
      have : (place == p) = false := by simp [Ne.symm h]
      simp [List.lookup_cons, this, ih]

theorem lookup_setIn_of_ne {place other : Place} (h : other ≠ place) (entry : Entry)
    (entries : List (Place × Entry)) :
    (setIn place entry entries).lookup other = entries.lookup other := by
  induction entries with
  | nil =>
    have : (other == place) = false := by simp [h]
    simp [setIn, List.lookup_cons, this]
  | cons e rest ih =>
    obtain ⟨p, e⟩ := e
    simp only [setIn]
    split
    · rename_i hp
      have : (other == p) = false := by simp [hp, h]
      simp [List.lookup_cons, this]
    · simp [List.lookup_cons, ih]

@[simp] theorem entryAt?_set_self (t : FileTree) {place : Place} (h : place ≠ []) (entry : Entry) :
    (t.set place entry).entryAt? place = some entry := by
  simp [entryAt?, set, h, lookup_setIn_self]

theorem entryAt?_set_of_ne (t : FileTree) {place other : Place} (h : other ≠ place)
    (entry : Entry) : (t.set place entry).entryAt? other = t.entryAt? other := by
  simp [entryAt?, set, lookup_setIn_of_ne h]

/-! ## Walking -/

/-- The longest name of an entry, in bytes. -/
def maxNameBytes : Nat := 255

/-- The longest path that can be looked up, in bytes. -/
def maxPathBytes : Nat := 4095

/-- The place that is reached from a place over pieces. -/
def walk (t : FileTree) (place : Place) : List (List Char) → Except FileError Place
  | [] => .ok place
  | piece :: rest =>
    if t.entryAt? place ≠ some .folder then .error .notFolder
    else if Path.isSilent piece then walk t place rest
    else if piece = ['.', '.'] then walk t place.dropLast rest
    else if maxNameBytes < Text.byteLength piece then .error .nameTooLong
    else if t.entryAt? (place ++ [piece]) = none then .error .notFound
    else walk t (place ++ [piece]) rest

/-- The place where a path starts, and its pieces; an error for a path that no system call takes. -/
def startOf (t : FileTree) (p : Path) : Except FileError (Place × List (List Char)) :=
  if p.text.toList.contains '\x00' then .error .zeroByte
  else if p.text = "" then .error .notFound
  else if maxPathBytes < p.text.utf8ByteSize then .error .nameTooLong
  else
    match Path.split p.text.toList with
    | (.root, pieces) => .ok ([], pieces)
    | (_, pieces) => .ok (t.workingFolder, pieces)

/-- The place that a path names. -/
def locate (t : FileTree) (p : Path) : Except FileError Place := do
  let (place, pieces) ← t.startOf p
  t.walk place pieces

/-- The entry that a path names. -/
def find (t : FileTree) (p : Path) : Except FileError Entry := do
  let place ← t.locate p
  match t.entryAt? place with
  | some entry => return entry
  | none => .error .notFound

/-- Whether a path names something. -/
def exists? (t : FileTree) (p : Path) : Bool :=
  match t.find p with
  | .ok _ => true
  | .error _ => false

/-- Whether a path names a file. -/
def isFile (t : FileTree) (p : Path) : Bool :=
  match t.find p with
  | .ok (.file _) => true
  | _ => false

/-- Whether a path names a folder. -/
def isFolder (t : FileTree) (p : Path) : Bool :=
  match t.find p with
  | .ok .folder => true
  | _ => false

/-- The working folder as a path. -/
def workingPath (t : FileTree) : Path :=
  Path.fromRoot (t.workingFolder.map .name)

/-- The normal path from the root to what a path names. -/
def absolute (t : FileTree) (p : Path) : Path :=
  if p.isAbsolute then p.normalize else t.workingPath.resolve p

end FileTree

end ApiReview
