import ApiReview.Files.Tree

/-!
# Building and comparing trees

A tree is built place by place, with the folders that a place needs, and compared with an earlier
one: which files have another content, and which folders are new.
-/

namespace ApiReview.FileTree

/-- The tree of the root alone. -/
def empty : FileTree := ⟨[], []⟩

/-- The tree with a folder unless it is one already. -/
def ensureFolder (t : FileTree) (place : Place) : FileTree :=
  if t.entryAt? place = some .folder then t else t.set place .folder

/-- The tree with a folder and all folders above it. -/
def withFolder (t : FileTree) (place : Place) : FileTree :=
  ((List.range (place.length + 1)).map place.take).foldl ensureFolder t

/-- The tree with a file and all folders above it. -/
def withFile (t : FileTree) (place : Place) (content : Content) : FileTree :=
  (t.withFolder place.dropLast).set place (.file content)

/-- The entries below a place that are not the same in an earlier tree. -/
def changesSince (before after : FileTree) (below : Place) : List (Place × Entry) :=
  after.entries.filter fun e => below.isPrefixOf e.1 && before.entryAt? e.1 != some e.2

/-- The changed files among entries. -/
def changedFiles (changes : List (Place × Entry)) : List (Place × Content) :=
  changes.filterMap fun
    | (place, .file content) => some (place, content)
    | (_, .folder) => none

/-- The new folders among changed entries. -/
def newFolders (changes : List (Place × Entry)) : List Place :=
  changes.filterMap fun
    | (_, .file _) => none
    | (place, .folder) => some place

end ApiReview.FileTree
