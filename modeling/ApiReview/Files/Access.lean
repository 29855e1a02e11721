import ApiReview.Files.Tree
import ApiReview.Text.LineEnding

/-!
# Reading and writing files

The operations on files that a run uses: reading a text, making folders, and writing a text in a
given style of line endings. An operation that fails half-way leaves what it did in the tree, so a
writer gives the tree together with its outcome. The causes of a failure are a chain of texts from
the outermost to the innermost (`Report`).
-/

namespace ApiReview

/-- A failure in words, with the causes from the outer to the inner. -/
structure Report where
  message : String
  causes : List String
  deriving DecidableEq, Repr

/-- Why a text file cannot be read or written. -/
inductive TextFileError where
  | unreadable (path : Path) (cause : FileError)
  | noFolderCreated (path : Path) (cause : FileError)
  | folderMissing (path : Path)
  | unwritable (path : Path) (cause : FileError)
  deriving DecidableEq, Repr

/-- A failure on a text file in words. -/
def TextFileError.report : TextFileError → Report
  | unreadable path cause => ⟨"failed to read " ++ path.text, [cause.message]⟩
  | noFolderCreated path cause => ⟨"failed to create folder " ++ path.text, [cause.message]⟩
  | folderMissing path => ⟨"folder does not exist: " ++ path.text, []⟩
  | unwritable path cause => ⟨"failed to write " ++ path.text, [cause.message]⟩

namespace FileTree

/-- The text of a file. -/
def readText (t : FileTree) (p : Path) : Except FileError String := do
  match ← t.find p with
  | .folder => .error .isFolder
  | .file (.text s) => return s
  | .file (.binary _) => .error .notText

/-- The folder and the last piece of a path's pieces given from the right. -/
def lastOf (t : FileTree) (start : Place) (pieces : List (List Char)) :
    Except FileError (Place × Option (List Char)) :=
  match pieces with
  | [] => .ok (start, none)
  | last :: rest => do
    let folder ← t.walk start rest.reverse
    if t.entryAt? folder ≠ some .folder then .error .notFolder
    else return (folder, some last)

/-- The tree with a new folder. -/
def makeFolder (t : FileTree) (p : Path) : Except FileError FileTree := do
  let (start, pieces) ← t.startOf p
  match ← t.lastOf start (pieces.reverse.dropWhile (· = [])) with
  | (_, none) => .error .alreadyExists
  | (folder, some name) =>
    if name = ['.'] || name = ['.', '.'] then .error .alreadyExists
    else if maxNameBytes < Text.byteLength name then .error .nameTooLong
    else if t.entryAt? (folder ++ [name]) ≠ none then .error .alreadyExists
    else return t.set (folder ++ [name]) .folder

/-- The first path of the list made a folder, after the paths behind it, which lead there. -/
def makeFolderChain (t : FileTree) : List Path → FileTree × Except FileError Unit
  | [] => (t, .ok ())
  | p :: outer =>
    if p.text = "" then (t, .ok ())
    else
      match t.makeFolder p with
      | .ok t => (t, .ok ())
      | .error .notFound =>
        match makeFolderChain t outer with
        | (t, .error e) => (t, .error e)
        | (t, .ok ()) =>
          match t.makeFolder p with
          | .ok t => (t, .ok ())
          | .error e => (t, if t.isFolder p then .ok () else .error e)
      | .error e => (t, if t.isFolder p then .ok () else .error e)

/-- A folder with all folders above it. -/
def makeFolders (t : FileTree) (p : Path) : FileTree × Except FileError Unit :=
  t.makeFolderChain p.ancestors

/-- The tree with a file that holds a text, new or in place of an earlier one. -/
def putText (t : FileTree) (p : Path) (s : String) : Except FileError FileTree := do
  let (start, pieces) ← t.startOf p
  let trailing := pieces.getLast? = some []
  match ← t.lastOf start (pieces.reverse.dropWhile (· = [])) with
  | (_, none) => .error .isFolder
  | (folder, some name) =>
    if name = ['.'] || name = ['.', '.'] || trailing then .error .isFolder
    else if maxNameBytes < Text.byteLength name then .error .nameTooLong
    else if t.entryAt? (folder ++ [name]) = some .folder then .error .isFolder
    else return t.set (folder ++ [name]) (.file (.text s))

end FileTree

/-- How a text file is written. -/
structure WriteOptions where
  /-- The style of line endings, or none to keep the text as it is. -/
  lineEnding : Option LineEnding
  /-- Whether missing folders are made. -/
  makeFolders : Bool
  deriving DecidableEq, Repr

namespace WriteOptions

/-- The text as it is, into an existing folder. -/
def asIs : WriteOptions := ⟨none, false⟩

/-- The text in a style of line endings, making the folders it needs. -/
def inStyle (kind : LineEnding) : WriteOptions := ⟨some kind, true⟩

/-- The text as it is stored. -/
def stored (options : WriteOptions) (s : String) : String :=
  match options.lineEnding with
  | some kind => kind.convert s
  | none => s

end WriteOptions

namespace FileTree

/-- The folder of a path, if the path says one. -/
def folderOf? (p : Path) : Option Path :=
  p.parent?.filter fun folder => folder.text ≠ ""

/-- The folder of a path made or checked, as the options say. -/
def prepareFolder (t : FileTree) (p : Path) (options : WriteOptions) :
    FileTree × Except TextFileError Unit :=
  match folderOf? p with
  | none => (t, .ok ())
  | some folder =>
    if options.makeFolders then
      let (t, made) := t.makeFolders folder
      (t, made.mapError (.noFolderCreated folder))
    else (t, if t.isFolder folder then .ok () else .error (.folderMissing folder))

/-- A text written to a file. -/
def writeText (t : FileTree) (p : Path) (s : String) (options : WriteOptions) :
    FileTree × Except TextFileError Unit :=
  match t.prepareFolder p options with
  | (t, .error e) => (t, .error e)
  | (t, .ok ()) =>
    match t.putText p (options.stored s) with
    | .ok t => (t, .ok ())
    | .error e => (t, .error (.unwritable p e))

/-- The text of a file, or a failure that names it. -/
def readTextFile (t : FileTree) (p : Path) : Except TextFileError String :=
  (t.readText p).mapError (.unreadable p)

end FileTree

end ApiReview
