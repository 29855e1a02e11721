import ApiReview.Files.Access

/-!
# What the engine sees of the files

The engine asks a host about files. The analysis is about declarations, so the host that it gives
to the engine hides a source file whose declaration file stands beside it (`Host.shadowing`).
Whether that declaration file exists is asked once for each, and the answer is kept in a cache.

A host answers in a monad of its own, so that what it is asked can be observed.
-/

namespace ApiReview

/-- The answers that the engine gets about files. -/
structure Host (m : Type → Type) where
  fileExists : Path → m Bool
  folderExists : Path → m Bool
  fileText : Path → m (Option String)
  /-- The folder with the declarations of the standard library. -/
  libraryFolder : Path
  workingFolder : Path

/-- Remembers of declaration files whether they exist. -/
abbrev DeclarationCache := List (Path × Bool)

namespace Host

/-- The host that answers from a tree of files. -/
def ofTree (t : FileTree) (workingFolder libraryFolder : Path) : Host Id where
  fileExists p := t.isFile p
  folderExists p := t.isFolder p
  fileText p := (t.readText p).toOption
  libraryFolder
  workingFolder

/-- The extensions of source files. -/
def sourceExtensions : List String :=
  ["ts", "tsx", "js", "jsx"]

/-- The declaration file that belongs to a path, if it is one of a source file. -/
def siblingDeclaration (p : Path) : Option Path :=
  if p.isDeclarationFile then none
  else
    match p.extension? with
    | some ext =>
      if sourceExtensions.contains (String.ofList (Text.lowerAscii ext.toList)) then
        some (p.withExtension "d.ts")
      else none
    | none => none

/-- The remembered answer about a declaration file. -/
def remembered? (cache : DeclarationCache) (p : Path) : Option Bool :=
  (cache.find? fun e => e.1.same p).map (·.2)

variable {m : Type → Type} [Monad m]

/-- Whether a declaration file exists, asked at most once. -/
def declarationExists (host : Host m) (p : Path) : StateT DeclarationCache m Bool := do
  match remembered? (← get) p with
  | some answer => return answer
  | none =>
    let answer ← host.fileExists p
    modify fun cache => cache ++ [(p, answer)]
    return answer

/-- Whether a file exists and is not hidden by its declaration file. -/
def isVisible (host : Host m) (p : Path) : StateT DeclarationCache m Bool := do
  match siblingDeclaration p with
  | none => host.fileExists p
  | some declaration =>
    if ← host.declarationExists declaration then return false
    else host.fileExists p

/-- The host of an analysis: source files are hidden behind their declarations, and a compiler
folder, if one is given, supplies the standard library. -/
def shadowing (host : Host m) (compilerFolder : Option Path) :
    Host (StateT DeclarationCache m) where
  fileExists := host.isVisible
  folderExists p := host.folderExists p
  fileText p := host.fileText p
  libraryFolder :=
    match compilerFolder with
    | some folder => folder.join ⟨"lib"⟩
    | none => host.libraryFolder
  workingFolder := host.workingFolder

end Host

end ApiReview
