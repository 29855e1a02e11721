import ApiReview.Text.Basic

/-!
# Paths

A path is a text in which slashes separate pieces. Which file it names hangs on its steps alone:
the root, a leading dot, a step up, or a name; repeated slashes and further dots say nothing. Two
paths are the same place when their steps agree (`Path.same`), however they are spelled.

A path as it is written is its anchor and its pieces, and nothing is lost by that
(`written_split`). The parent, the ancestors, the file name and its extension are read off the
pieces from the right.
-/

namespace ApiReview

open Text

/-- A path, as it is written. -/
structure Path where
  text : String
  deriving DecidableEq, Repr, Inhabited

namespace Path

/-- What a path begins with. -/
inductive Anchor where
  | root
  /-- A dot that stands alone before the first slash. -/
  | here
  | free
  deriving DecidableEq, Repr

/-- One step of a path. -/
inductive Step where
  | root
  | here
  | up
  | name (chars : List Char)
  deriving DecidableEq, Repr

/-- The text of an anchor. -/
def Anchor.chars : Anchor → List Char
  | .root => ['/']
  | .here => ['.']
  | .free => []

/-- The step that an anchor is. -/
def Anchor.steps : Anchor → List Step
  | .root => [.root]
  | .here => [.here]
  | .free => []

/-- The anchor of a path and the pieces between its slashes. -/
def split : List Char → Anchor × List (List Char)
  | '/' :: s => (.root, splitOn '/' s)
  | ['.'] => (.here, [[]])
  | '.' :: '/' :: s => (.here, [] :: splitOn '/' s)
  | s => (.free, splitOn '/' s)

/-- The path with an anchor and pieces. -/
def written (anchor : Anchor) (pieces : List (List Char)) : List Char :=
  anchor.chars ++ joinWith '/' pieces

theorem written_split (s : List Char) : written (split s).1 (split s).2 = s := by
  unfold split
  split
  · simp [written, Anchor.chars, joinWith_splitOn]
  · rfl
  · rename_i s
    cases h : splitOn '/' s with
    | nil => exact absurd h (splitOn_ne_nil _ _)
    | cons piece pieces =>
      have := joinWith_splitOn '/' s
      rw [h] at this
      simp [written, Anchor.chars, joinWith, this]
  · simp [written, Anchor.chars, joinWith_splitOn]

/-- Whether a piece says nothing: it is empty or a dot. -/
def isSilent (piece : List Char) : Bool :=
  piece = [] || piece = ['.']

/-- The step that a piece makes, if any. -/
def stepOf? (piece : List Char) : Option Step :=
  if isSilent piece then none
  else if piece = ['.', '.'] then some .up
  else some (.name piece)

/-- The steps of a written path. -/
def stepsOf (s : List Char) : List Step :=
  (split s).1.steps ++ (split s).2.filterMap stepOf?

/-- The steps of a path, which decide what it names. -/
def steps (p : Path) : List Step :=
  stepsOf p.text.toList

/-- Whether two paths make the same steps. -/
def same (p q : Path) : Bool :=
  p.steps = q.steps

/-- Whether a path starts at the root. -/
def isAbsolute (p : Path) : Bool :=
  p.text.toList.head? = some '/'

/-- The path from `base` to `p`; an absolute `p` stands for itself. -/
def join (base p : Path) : Path :=
  if p.isAbsolute || base.text = "" then p
  else if base.text.toList.getLast? = some '/' then ⟨base.text ++ p.text⟩
  else ⟨base.text ++ "/" ++ p.text⟩

/-! ## From the right -/

/-- The paths above one whose pieces are given from the right. -/
def above (anchor : Anchor) : List (List Char) → List Path
  | [] => if anchor = .here then [⟨""⟩] else []
  | piece :: rest =>
    if isSilent piece then above anchor rest
    else ⟨String.ofList (written anchor (rest.dropWhile isSilent).reverse)⟩ :: above anchor rest

/-- The paths above a path, the nearest first. -/
def parents (p : Path) : List Path :=
  above (split p.text.toList).1 (split p.text.toList).2.reverse

/-- The path and the paths above it. -/
def ancestors (p : Path) : List Path :=
  p :: p.parents

/-- The path without its last step. -/
def parent? (p : Path) : Option Path :=
  p.parents.head?

/-- The last piece that makes a step, with the pieces left of it from the right. -/
def lastPiece? (p : Path) : Option (List Char × List (List Char)) :=
  match (split p.text.toList).2.reverse.dropWhile isSilent with
  | [] => none
  | piece :: rest => if piece = ['.', '.'] then none else some (piece, rest)

/-- The name cut at its last dot, unless the dot comes first. -/
def cutExtension? (name : List Char) : Option (List Char × List Char) :=
  match cutAt? '.' name.reverse with
  | some (ext, stem) => if stem = [] then none else some (stem.reverse, ext.reverse)
  | none => none

/-- The extension of the file name. -/
def extension? (p : Path) : Option String := do
  let (name, _) ← p.lastPiece?
  let (_, ext) ← cutExtension? name
  return String.ofList ext

/-- The path with an extension behind the stem of its file name, if it has a file name. -/
def setExtension (p : Path) (ext : String) : Path :=
  match p.lastPiece? with
  | none => p
  | some (name, rest) =>
    let stem := ((cutExtension? name).map (·.1)).getD name
    ⟨String.ofList
      (written (split p.text.toList).1 ((stem ++ '.' :: ext.toList) :: rest).reverse)⟩

/-- The path without its last `n` characters. -/
def cutEnd (p : Path) (n : Nat) : Path :=
  ⟨String.ofList (p.text.toList.take (p.text.toList.length - n))⟩

/-- The path with another extension in place of its own. First as many characters are cut off as the
own one has: of `..ts` that leaves a step up, and no extension is put behind a step up. -/
def withExtension (p : Path) (ext : String) : Path :=
  match p.extension? with
  | none => p.setExtension ext
  | some old => (p.cutEnd old.toList.length).setExtension ext

/-- The path with a slash for each backslash. -/
def toSlashes (p : Path) : String :=
  String.ofList (p.text.toList.map fun c => if c = '\\' then '/' else c)

/-! ## Declaration files -/

/-- The ends of the names of declaration files. -/
def declarationSuffixes : List String :=
  [".d.ts", ".d.mts", ".d.cts"]

/-- Whether a path names a declaration file, in capitals or not. No letter outside ASCII has one
of the letters of these suffixes as its small form, so the ASCII mapping decides. -/
def isDeclarationFile (p : Path) : Bool :=
  declarationSuffixes.any fun suffix =>
    suffix.toList.reverse.isPrefixOf (lowerAscii p.text.toList).reverse

/-! ## Order -/

/-- The place of a step among the kinds of steps. -/
def Step.rank : Step → Nat
  | .root => 0
  | .here => 1
  | .up => 2
  | .name _ => 3

/-- The order of two lists by their first difference; the end comes first. -/
def compareLists {α : Type} (cmp : α → α → Ordering) : List α → List α → Ordering
  | [], [] => .eq
  | [], _ :: _ => .lt
  | _ :: _, [] => .gt
  | a :: as, b :: bs => (cmp a b).then (compareLists cmp as bs)

/-- The order of two texts by code points. -/
def compareChars : List Char → List Char → Ordering :=
  compareLists fun a b => compare a.toNat b.toNat

/-- The order of steps: by kind, names by code points. -/
def Step.compare : Step → Step → Ordering
  | .name a, .name b => compareChars a b
  | a, b => Ord.compare a.rank b.rank

/-- The order of paths, step by step. -/
def compare (p q : Path) : Ordering :=
  compareLists Step.compare p.steps q.steps

end Path

end ApiReview
