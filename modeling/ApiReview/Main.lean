import ApiReview.Command.Lookup
import ApiReview.Command.Run
import Std.Data.HashSet

/-!
# The program

Collects the files that the command looks at, runs the command on them as a value, writes what it
changed, and prints what it says.
-/

namespace ApiReview.Main

open Command

/-- The status of the operating system for reading a folder as a file. -/
def folderStatus : UInt32 := 21

/-- What stands at a path. -/
def probe (path : Path) : IO (Option Entry) := do
  try
    let bytes ← IO.FS.readBinFile path.text
    match String.fromUTF8? bytes with
    | some s => return some (.file (.text s))
    | none => return some (.file (.binary bytes.toList))
  catch
    | .inappropriateType _ status _ =>
      return if status = folderStatus then some .folder else none
    | _ => return none

/-- The place of a normal path from the root. -/
def placeOf (path : Path) : Place :=
  (Text.splitOn '/' path.text.toList).filter fun piece => !Path.isSilent piece

/-- The tree with what stands at paths, and the paths that are known now. -/
def addPaths (paths : List Path) (known : Std.HashSet String) (t : FileTree) :
    IO (FileTree × Std.HashSet String) :=
  paths.foldlM (fun (t, known) path => do
    if known.contains path.text then return (t, known)
    let t :=
      match ← probe path with
      | some (.file content) => t.withFile (placeOf path) content
      | some .folder => t.withFolder (placeOf path)
      | none => t
    return (t, known.insert path.text)) (t, known)

/-- The files that a request looks at, collected in at most so many rounds. -/
def collect (request : Request) : Nat → Std.HashSet String → FileTree → IO FileTree
  | 0, _, t => return t
  | rounds + 1, known, t => do
    let (t, after) ← addPaths (lookups t request) known t
    if after.size = known.size then return t else collect request rounds after t

/-- How often documents may lead to further documents. -/
def maxRounds : Nat := 64

/-- The files that a request looks at, from the working folder. -/
def collectFiles (request : Request) : IO FileTree := do
  let folder : Path := ⟨(← IO.currentDir).toString⟩
  collect request maxRounds ∅ { FileTree.empty with workingFolder := placeOf folder.normalize }

/-- What a command changed, written. -/
def save (before after : FileTree) : IO Unit := do
  let changes := before.changesSince after []
  for place in FileTree.newFolders changes do
    IO.FS.createDir (Path.fromRoot (place.map .name)).text
  for (place, content) in FileTree.changedFiles changes do
    if let .text s := content then
      IO.FS.writeFile (Path.fromRoot (place.map .name)).text s

/-- The answer of the user to a question, if there is a user to ask. -/
def ask (question : String) : IO Consent := do
  let input ← IO.getStdin
  if !(← input.isTty) then return .unavailable
  IO.eprint (question ++ " [y/n] ")
  let answer := Text.trimmed (← input.getLine)
  return if answer = "y" || answer = "yes" then .given else .refused

/-- The user's consent, asked for if the request needs it. -/
def consentTo (t : FileTree) : Request → IO Consent
  | .init folder force =>
    if needsConsent t folder force then ask (replaceQuestion (starterPath folder))
    else return .unavailable
  | _ => return .unavailable

/-- A command line done, with what it came to. -/
def perform (args : List String) : IO Done := do
  match Request.ofArguments args with
  | .error e => return .refusal .empty e
  | .ok request =>
    let t ← collectFiles request
    let done := request.run t (← consentTo t request)
    save t done.files
    return done

end ApiReview.Main

/-- Runs the command line and ends with its status. -/
def main (args : List String) : IO UInt32 := do
  let done ← ApiReview.Main.perform args
  IO.print done.out
  IO.eprint done.err
  return done.status.toUInt32
