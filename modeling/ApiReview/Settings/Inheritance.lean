import ApiReview.Json.Overlay
import ApiReview.Settings.Defaults
import ApiReview.Settings.Failure

/-!
# Loading settings

A settings file may extend another one, and so on. Each document of that chain has its relative
paths read from its own folder (`anchorPaths`) and is laid over the documents that it extends;
the built-in document lies under them all. No document may be reached twice. The references of a
chain are relative, absolute, or name a file in a `node_modules` folder above the document.
-/

namespace ApiReview.Settings

open Json (Members)
open Text

/-- The name of a settings file. -/
def fileName : Path := ⟨"api-surface.json"⟩

/-! ## Paths in a document -/

/-- The key paths of the settings that are paths; those of the further entry points come apart. -/
def pathSettings : List (List String) :=
  [["projectFolder"], ["mainEntryPointFilePath"], ["compiler", "tsconfigFilePath"],
    ["apiReport", "reportFolder"], ["apiReport", "reportTempFolder"],
    ["docModel", "apiJsonFilePath"], ["dtsRollup", "untrimmedFilePath"],
    ["dtsRollup", "alphaTrimmedFilePath"], ["dtsRollup", "betaTrimmedFilePath"],
    ["dtsRollup", "publicTrimmedFilePath"], ["tsdocMetadata", "tsdocMetadataFilePath"]]

/-- Whether a path setting means the same wherever its document lies. -/
def isAnchored (s : String) : Bool :=
  s = "" || (Path.mk s).isAbsolute || startsWith Placeholder.projectFolder s ||
    trimmed s = Placeholder.lookup

/-- A path setting read from a folder. -/
def anchorPath (folder : Path) (s : String) : String :=
  if isAnchored s then s else (folder.resolve ⟨s⟩).text

/-- A value read as a path from a folder, if it is a text. -/
def anchorValue (folder : Path) : Json → Json
  | .string s => .string (anchorPath folder s)
  | v => v

/-- The members with the value at a path of keys changed, if there is one. -/
def changeAt (f : Json → Json) : List String → Members → Members
  | [], members => members
  | [key], members => Json.change key f members
  | key :: next :: path, members =>
    Json.change key (fun
      | .object inner => .object (changeAt f (next :: path) inner)
      | v => v) members

/-- A further entry point with its path read from a folder. -/
def anchorEntryPoint (folder : Path) : Json → Json
  | .object members => .object (Json.change "filePath" (anchorValue folder) members)
  | v => v

/-- A document with every path setting read from a folder. -/
def anchorPaths (folder : Path) (members : Members) : Members :=
  let members := pathSettings.foldl (fun ms path => changeAt (anchorValue folder) path ms) members
  Json.change "additionalEntryPoints" (fun
    | .array entries => .array (entries.map (anchorEntryPoint folder))
    | v => v) members

/-! ## The chain -/

/-- Whether a reference is relative to the folder of its document. -/
def isRelativeReference (s : String) : Bool :=
  ["./", ".\\", "../", "..\\"].any (startsWith · s)

/-- The files that a reference by name may mean in a folder, in their order. -/
def namedCandidates (folder : Path) (name : String) : List Path :=
  let modules := folder.join ⟨"node_modules"⟩
  [modules.join ⟨name⟩, modules.join ⟨name ++ ".json"⟩]

/-- The file that a reference means, if there is one. -/
def resolveReference? (t : FileTree) (folder : Path) (reference : String) : Option Path :=
  if isRelativeReference reference then some (folder.resolve ⟨reference⟩)
  else if (Path.mk reference).isAbsolute then some (Path.normalize ⟨reference⟩)
  else (folder.ancestors.flatMap (namedCandidates · reference)).find? t.isFile

/-- The members of the document in a file. -/
def readDocument (t : FileTree) (path : Path) : Except SettingsError Members := do
  let s ← (t.readText path).mapError fun e => .unloadable path (.unreadable e)
  match ← (Json.parse s).mapError fun e => .malformed path s e.refusal with
  | .object members => return members
  | _ => .error (.unloadable path .notAnObject)

/-- The folder of a file. -/
def folderOf (path : Path) : Path :=
  path.parent?.getD ⟨""⟩

/-- The file that a document extends, if any. -/
def extended? (t : FileTree) (path : Path) (members : Members) :
    Except SettingsError (Option Path) :=
  match Json.find? "extends" members with
  | none => .ok none
  | some .null => .ok none
  | some (.string s) =>
    if isBlankText s then .ok none
    else
      match resolveReference? t (folderOf path) s with
      | some next => .ok (some next)
      | none => .error (.unresolvedExtends path s (folderOf path))
  | some _ => .error (.unloadable path .extendsNotText)

/-- A document as it takes part in the chain: without its reference, its paths read from its
folder. -/
def ownDocument (path : Path) (members : Members) : Json :=
  .object (anchorPaths (folderOf path) (Json.takeOut "extends" members))

/-- More documents than have paths that can be looked up. -/
def chainBound : Nat := Nat.pow 2 32768

/-- The chain from a file on, laid under the documents before it, whose paths are given. The paths
of a chain differ from each other, so it never comes to the bound. -/
def loadChain (t : FileTree) : Nat → List Path → Path → Json → Except SettingsError Json
  | 0, _, path, _ => .error (.extendsCycle path)
  | bound + 1, visited, path, upper => do
    if visited.any (·.same path) then throw (.extendsCycle path)
    let members ← readDocument t path
    let next ← extended? t path members
    let merged := Json.overlay (ownDocument path members) upper
    match next with
    | some next => loadChain t bound (path :: visited) next merged
    | none => return merged

/-- The document of a file with all that it extends and the built-in settings, checked by the
given rule. -/
def loadChecked (violations : Json → List String) (t : FileTree) (path : Path) :
    Except SettingsError Json := do
  let root := t.absolute path
  let merged ← loadChain t chainBound [] root (.object [])
  let document := Json.overlay defaults merged
  if violations document ≠ [] then
    throw (.schema .loading root.text (violations document))
  return document

/-- The document of a file with all that it extends and the built-in settings, which has to be a
settings file. -/
def load (t : FileTree) (path : Path) : Except SettingsError Json :=
  loadChecked SettingsFile.violations t path

/-! ## Finding the file of a folder -/

/-- Where the settings of a project come from. -/
structure Source where
  document : Json
  path : Path
  manifestPath : Option Path
  deriving Repr

/-- The folder whose settings hold for a starting folder: that of the nearest manifest, else the
starting folder itself. -/
def baseFolder (start : Path) (manifestPath : Option Path) : Path :=
  (manifestPath.bind Path.parent?).getD start

/-- The settings that hold for a folder, if there are any: in the folder of the nearest manifest
or in its `config` folder, but not in both. -/
def loadForFolder (t : FileTree) (folder : Path) : Except SettingsError (Option Source) := do
  let start := t.absolute folder
  let manifestPath := Manifest.findFrom t start
  let base := baseFolder start manifestPath
  let inConfig := (base.join ⟨"config"⟩).join fileName
  let atRoot := base.join fileName
  match t.isFile inConfig, t.isFile atRoot with
  | true, true => .error (.conflictingFiles base)
  | true, false =>
    let document ← load t inConfig
    return some ⟨document, inConfig, manifestPath⟩
  | false, true =>
    let document ← load t atRoot
    return some ⟨document, atRoot, manifestPath⟩
  | false, false => return none

end ApiReview.Settings
